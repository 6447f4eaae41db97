/-
  Pintos.Fs.Inode

  The free map (filesys/free-map.c) and the inode layer (filesys/inode.c) over
  it: growing and releasing inodes, and the operations on open inodes.
-/

import Pintos.Fs.Disk

namespace Pintos.Fs

open Pintos.Base Pintos.Lib

/-! ## The free map -/

/-- `byte_cnt`: the size of a bitmap in memory and in a file, in elements of 32
    bits. -/
def byteCnt (bitCnt : Nat) : Nat := 4 * ((bitCnt + 31) / 32)

/-- Byte `k` of a bitmap. -/
def bitmapByte (b : List Bool) (k : Nat) : UInt8 :=
  UInt8.ofNat (((List.range 8).map fun j => if b[8 * k + j]? = some true then 2 ^ j else 0).sum)

/-- The bytes of a bitmap. -/
def bitmapBytes (b : List Bool) : List UInt8 := (List.range (byteCnt b.length)).map (bitmapByte b)

/-- `bitmap_write (free_map, free_map_file)`: `inode_write_at` of the whole
    bitmap at offset 0 of the free map's inode. -/
def bitmapWrite : M Bool := do
  let s ← get
  if !s.freeMapFile then throw .badPointer
  else
    match s.inode? FREE_MAP_SECTOR with
    | none => throw .badPointer
    | some i =>
      let bytes := bitmapBytes s.freeMap
      if i.denyWriteCnt ≠ 0 then pure (0 == bytes.length)
      else if length i.data < bytes.length then throw .freeMapGrows
      else do
        let written ← writeLoop i.data bytes.length bytes 0 false
        pure (written == bytes.length)

/-- `free_map_allocate`. -/
def freeMapAllocate (cnt : Nat) : M (Option Sector) := do
  let s ← get
  match bitmapScanAndFlip s.freeMap 0 cnt false with
  | none => pure none
  | some (sector, freeMap) => do
    set (s.setFreeMap freeMap)
    if s.freeMapFile then
      if ← bitmapWrite then pure (some sector)
      else do
        modify fun s => s.setFreeMap (bitmapSetMultiple s.freeMap sector cnt false)
        pure none
    else pure (some sector)

/-- `free_map_release`; `bitmap_all` fails an assertion of its own on bits past
    the end. -/
def freeMapRelease (sector : Sector) (cnt : Nat) : M Unit := do
  let s ← get
  if sector + cnt ≤ s.freeMap.length ∧ bitmapAll s.freeMap sector cnt then do
    set (s.setFreeMap (bitmapSetMultiple s.freeMap sector cnt false))
    let _ ← bitmapWrite
    pure ()
  else throw .notAllocated

/-! ## Growing -/

/-- An index block could not be allocated: `new_sector` is given back. -/
def extendFails (d : Memory) (newSector : Sector) : M (Memory × Bool) := do
  freeMapRelease newSector 1
  pure (d, false)

/-- `new_sector` is entered into the indirect block. -/
def fillIndirect (d : Memory) (idx : Nat) (newSector : Sector) : M (Memory × Bool) := do
  let buf ← blockRead (indirect d)
  let buf ← setPtr buf idx newSector
  blockWrite (indirect d) buf
  pure (d, true)

/-- The part of `inode_extend` for sector `idx` of the indirect block. -/
def extendIndirect (d : Memory) (idx : Nat) (newSector : Sector) : M (Memory × Bool) := do
  if idx = 0 then do
    match ← freeMapAllocate 1 with
    | none => extendFails d newSector
    | some n => do
      let d := setIndirect d n
      blockWrite (indirect d) zeros
      fillIndirect d idx newSector
  else fillIndirect d idx newSector

/-- `new_sector` is entered into a second-level block. -/
def fillInner (d outer : Memory) (outerIdx innerIdx : Nat) (newSector : Sector) :
    M (Memory × Bool) := do
  let n ← ptr outer outerIdx
  let inner ← blockRead n
  let inner ← setPtr inner innerIdx newSector
  blockWrite n inner
  pure (d, true)

/-- The part of `inode_extend` for sector `off` behind the indirect block, once
    the doubly-indirect block is there. -/
def extendInner (d : Memory) (off : Nat) (newSector : Sector) : M (Memory × Bool) := do
  let outerIdx := off / PTRS_PER_SECTOR
  let innerIdx := off % PTRS_PER_SECTOR
  let outer ← blockRead (doublyIndirect d)
  if innerIdx = 0 then do
    match ← freeMapAllocate 1 with
    | none => extendFails d newSector
    | some n => do
      blockWrite n zeros
      let outer ← setPtr outer outerIdx n
      blockWrite (doublyIndirect d) outer
      fillInner d outer outerIdx innerIdx newSector
  else fillInner d outer outerIdx innerIdx newSector

/-- The part of `inode_extend` for sector `off` behind the indirect block. -/
def extendDoubly (d : Memory) (off : Nat) (newSector : Sector) : M (Memory × Bool) := do
  if off = 0 then do
    match ← freeMapAllocate 1 with
    | none => extendFails d newSector
    | some n => do
      let d := setDoublyIndirect d n
      blockWrite (doublyIndirect d) zeros
      extendInner d off newSector
  else extendInner d off newSector

/-- One iteration of `inode_extend`: sector `i` of the inode. -/
def extendOne (d : Memory) (i : Nat) : M (Memory × Bool) := do
  match ← freeMapAllocate 1 with
  | none => pure (d, false)
  | some newSector => do
    blockWrite newSector zeros
    if i < DIRECT_BLOCKS then do
      let d ← setDirect d i newSector
      pure (d, true)
    else if i < DIRECT_BLOCKS + PTRS_PER_SECTOR then extendIndirect d (i - DIRECT_BLOCKS) newSector
    else extendDoubly d (i - DIRECT_BLOCKS - PTRS_PER_SECTOR) newSector

/-- The loop of `inode_extend`, with `n` sectors to go from sector `i` on. -/
def extendLoop : Nat → Nat → Memory → M (Memory × Bool)
  | 0, _, d => pure (d, true)
  | n + 1, i, d => do
    let (d, ok) ← extendOne d i
    if ok then extendLoop n (i + 1) d else pure (d, false)

/-- `inode_extend`: the `struct inode_disk`, and whether there was room. -/
def inodeExtend (d : Memory) (newLength : Int) : M (Memory × Bool) := do
  let oldSectors := bytesToSectors (length d)
  let newSectors := bytesToSectors newLength
  if newSectors ≤ oldSectors then pure (setLength d newLength, true)
  else do
    let (d, ok) ← extendLoop (newSectors - oldSectors) oldSectors d
    if ok then pure (setLength d newLength, true) else pure (d, false)

/-! ## Releasing -/

/-- The loop over the first `n` entries of a block of pointers. -/
def releasePtrs (buf : Memory) : Nat → Nat → M Unit
  | 0, _ => pure ()
  | n + 1, i => do
    freeMapRelease (← ptr buf i) 1
    releasePtrs buf n (i + 1)

/-- The loop over the direct blocks. -/
def releaseDirect (d : Memory) : Nat → Nat → M Unit
  | 0, _ => pure ()
  | n + 1, i => do
    freeMapRelease (← direct d i) 1
    releaseDirect d n (i + 1)

/-- The loop over the second-level blocks; `remaining` sectors are left. -/
def releaseInner (outer : Memory) : Nat → Nat → Nat → M Unit
  | 0, _, _ => pure ()
  | n + 1, i, remaining => do
    let inner ← blockRead (← ptr outer i)
    let innerCnt := if remaining < PTRS_PER_SECTOR then remaining else PTRS_PER_SECTOR
    releasePtrs inner innerCnt 0
    freeMapRelease (← ptr outer i) 1
    releaseInner outer n (i + 1) (remaining - innerCnt)

/-- The part of `inode_deallocate` behind the direct blocks. -/
def releaseIndirect (d : Memory) (sectors : Nat) : M Unit := do
  let buf ← blockRead (indirect d)
  let indCnt := sectors - DIRECT_BLOCKS
  releasePtrs buf (if indCnt > PTRS_PER_SECTOR then PTRS_PER_SECTOR else indCnt) 0
  freeMapRelease (indirect d) 1

/-- The part of `inode_deallocate` behind the indirect block. -/
def releaseDoubly (d : Memory) (sectors : Nat) : M Unit := do
  let outer ← blockRead (doublyIndirect d)
  let remaining := sectors - DIRECT_BLOCKS - PTRS_PER_SECTOR
  releaseInner outer ((remaining + PTRS_PER_SECTOR - 1) / PTRS_PER_SECTOR) 0 remaining
  freeMapRelease (doublyIndirect d) 1

/-- `inode_deallocate`. -/
def inodeDeallocate (d : Memory) : M Unit := do
  let sectors := bytesToSectors (length d)
  if sectors = 0 then pure ()
  else do
    releaseDirect d (if sectors < DIRECT_BLOCKS then sectors else DIRECT_BLOCKS) 0
    if sectors ≤ DIRECT_BLOCKS then pure ()
    else do
      releaseIndirect d sectors
      if sectors ≤ DIRECT_BLOCKS + PTRS_PER_SECTOR then pure ()
      else releaseDoubly d sectors

/-! ## Inodes -/

/-- `inode_create`. -/
def inodeCreate (sector : Sector) (len : Int) : M Bool := do
  if len < 0 then throw .negativeLength
  else if ← malloc then do
    let d := setMagic (setLength zeros 0) INODE_MAGIC
    if 0 < len then do
      let (d, ok) ← inodeExtend d len
      if ok then do
        blockWrite sector d
        pure true
      else pure false
    else do
      blockWrite sector d
      pure true
  else pure false

/-- The open inode behind a pointer. -/
def getInode (sector : Sector) : M Inode := do
  let s ← get
  match s.inode? sector with
  | none => throw .badPointer
  | some i => pure i

/-- Assignment through a pointer to an open inode. -/
def modifyInode (sector : Sector) (f : Inode → Inode) : M Unit :=
  modify fun s => s.updateInode sector f

/-- `inode_reopen`; a null pointer stays one. -/
def inodeReopen : Option Sector → M (Option Sector)
  | none => pure none
  | some sector => do
    let _ ← getInode sector
    modifyInode sector fun i => { i with openCnt := i.openCnt + 1 }
    pure (some sector)

/-- `inode_open`. -/
def inodeOpen (sector : Sector) : M (Option Sector) := do
  let s ← get
  if (s.inode? sector).isSome then inodeReopen (some sector)
  else if ← malloc then do
    let data ← blockRead sector
    modify fun s => s.setOpenInodes (⟨sector, 1, false, 0, data⟩ :: s.openInodes)
    pure (some sector)
  else pure none

/-- `inode_close`. -/
def inodeClose : Option Sector → M Unit
  | none => pure ()
  | some sector => do
    let i ← getInode sector
    if i.openCnt - 1 = 0 then do
      modify fun s => s.setOpenInodes (s.openInodes.filter fun i => i.sector ≠ sector)
      if i.removed then do
        freeMapRelease i.sector 1
        inodeDeallocate i.data
      else pure ()
    else modifyInode sector fun i => { i with openCnt := i.openCnt - 1 }

/-- `inode_remove`. -/
def inodeRemove (sector : Sector) : M Unit := do
  let _ ← getInode sector
  modifyInode sector fun i => { i with removed := true }

/-- `inode_read_at`. -/
def inodeReadAt (sector : Sector) (size offset : Nat) : M (List UInt8) := do
  let i ← getInode sector
  readLoop i.data size size offset false

/-- `inode_write_at`; the buffer holds the `size` bytes to write, none if `size`
    is negative. -/
def inodeWriteAt (sector : Sector) (buffer : List UInt8) (size : Int) (offset : Nat) : M Nat := do
  let i ← getInode sector
  let len := toInt32 (offset + size)
  if i.denyWriteCnt ≠ 0 then pure 0
  else if length i.data < len then do
    let (d, ok) ← inodeExtend i.data len
    modifyInode sector fun i => { i with data := d }
    if ok then do
      blockWrite sector d
      writeLoop d buffer.length buffer offset false
    else pure 0
  else writeLoop i.data buffer.length buffer offset false

/-- `inode_deny_write`. -/
def inodeDenyWrite (sector : Sector) : M Unit := do
  let i ← getInode sector
  modifyInode sector fun i => { i with denyWriteCnt := i.denyWriteCnt + 1 }
  if i.denyWriteCnt + 1 ≤ i.openCnt then pure () else throw .denyCount

/-- `inode_allow_write`. -/
def inodeAllowWrite (sector : Sector) : M Unit := do
  let i ← getInode sector
  if 0 < i.denyWriteCnt ∧ i.denyWriteCnt ≤ i.openCnt then
    modifyInode sector fun i => { i with denyWriteCnt := i.denyWriteCnt - 1 }
  else throw .denyCount

/-- `inode_is_dir`. -/
def inodeIsDir (sector : Sector) : M Bool := do
  let i ← getInode sector
  pure (isDir i.data ≠ 0)

/-- `inode_set_dir`. -/
def inodeSetDir (sector : Sector) (dir : Bool) : M Unit := do
  let i ← getInode sector
  let d := setIsDir i.data (if dir then 1 else 0)
  modifyInode sector fun i => { i with data := d }
  blockWrite sector d

/-- `inode_is_removed`. -/
def inodeIsRemoved (sector : Sector) : M Bool := do
  let i ← getInode sector
  pure i.removed

end Pintos.Fs
