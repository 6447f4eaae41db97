/-
  Pintos.Fs.Directory

  Directories (filesys/directory.c): files of entries of twenty bytes, the sector
  of an inode, a name and a flag.

  A `struct dir_entry` is the sequence of its bytes, so that what is behind the end
  of a name is part of the model.  The loop over the entries of a directory reads one
  entry in each iteration until a read is short; the length of the inode bounds the
  number of iterations.
-/

import Pintos.Fs.Inode
import Pintos.Lib.Ustar

namespace Pintos.Fs

open Pintos.Base Pintos.Lib

/-! ## Entries -/

abbrev NAME_MAX : Nat := 14

/-- `sizeof (struct dir_entry)`. -/
abbrev ENTRY_SIZE : Nat := 20

/-- The `inode_sector` field. -/
def entrySector (e : Memory) : Sector := word e 0

/-- The `name` field, as a string. -/
def entryName (e : Memory) : Bytes := cString (bytesAt e 4 (NAME_MAX + 1))

/-- The `in_use` field. -/
def inUse (e : Memory) : Bool := e 19 != 0

/-- "." -/
def dot : Bytes := [46]

/-! ## Handles -/

/-- `struct dir`. -/
structure Dir where
  inode : Sector
  pos : Nat
  deriving DecidableEq, Repr

/-- `dir_open`. -/
def dirOpen (inode : Option Sector) : M (Option Dir) := do
  let memory ← malloc
  match inode with
  | some sector =>
    if memory then pure (some ⟨sector, 0⟩)
    else do
      inodeClose (some sector)
      pure none
  | none => do
    inodeClose none
    pure none

/-- `dir_open_root`. -/
def dirOpenRoot : M (Option Dir) := do
  dirOpen (← inodeOpen ROOT_DIR_SECTOR)

/-- `dir_reopen`. -/
def dirReopen (dir : Dir) : M (Option Dir) := do
  dirOpen (← inodeReopen (some dir.inode))

/-- `dir_close`. -/
def dirClose : Option Dir → M Unit
  | none => pure ()
  | some dir => inodeClose (some dir.inode)

/-! ## Looking up -/

/-- The number of reads of a whole entry that the inode allows, and one more. -/
def entryReads (dir : Dir) : M Nat := do
  let i ← getInode dir.inode
  pure ((length i.data).toNat / ENTRY_SIZE + 1)

/-- The loop of `lookup`. -/
def lookupLoop (dir : Dir) (name : Bytes) : Nat → Nat → M (Option (Memory × Nat))
  | 0, _ => pure none
  | n + 1, ofs => do
    let bytes ← inodeReadAt dir.inode ENTRY_SIZE ofs
    if bytes.length = ENTRY_SIZE then
      let e := copyTo zeros 0 bytes
      if inUse e ∧ name = entryName e then pure (some (e, ofs))
      else lookupLoop dir name n (ofs + ENTRY_SIZE)
    else pure none

/-- `lookup`: the entry and its offset. -/
def lookup (dir : Dir) (name : Bytes) : M (Option (Memory × Nat)) := do
  lookupLoop dir name (← entryReads dir) 0

/-- `dir_lookup`. -/
def dirLookup (dir : Dir) (name : Bytes) : M (Option Sector) := do
  match ← lookup dir name with
  | some (e, _) => inodeOpen (entrySector e)
  | none => pure none

end Pintos.Fs
