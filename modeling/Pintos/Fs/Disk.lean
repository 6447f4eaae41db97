/-
  Pintos.Fs.Disk

  The state of the file system: the sectors of the device, the free map
  (filesys/free-map.c) and the open inodes (filesys/inode.c).

  A sector is the sequence of its bytes.  A `struct inode_disk` is a sector too:
  its fields are the words at fixed offsets, in memory as on the device.  Open
  inodes have distinct sectors, so a `struct inode *` is the sector of the inode.

  Functions are programs over that state.  A program stops where the source
  fails an assertion, panics, or uses an index outside its array.
-/

import Pintos.Base.Memory
import Pintos.Base.Triple
import Pintos.Lib.Bitmap

namespace Pintos.Fs

open Pintos.Base Pintos.Lib

/-- `block_sector_t`. -/
abbrev Sector := Nat

abbrev BLOCK_SECTOR_SIZE : Nat := 512

abbrev FREE_MAP_SECTOR : Sector := 0

abbrev ROOT_DIR_SECTOR : Sector := 1

/-- Where the kernel stops. -/
inductive Stop where
  /-- `PANIC ("Access past end of device ...")` in `check_sector` -/
  | pastEnd
  /-- An index outside `direct` or outside a block of pointers -/
  | indexRange
  /-- `ASSERT (length >= 0)` in `inode_create` -/
  | negativeLength
  /-- `ASSERT (bitmap_all (free_map, sector, cnt))` in `free_map_release` -/
  | notAllocated
  /-- `ASSERT (deny_write_cnt > 0)` or `ASSERT (deny_write_cnt <= open_cnt)` -/
  | denyCount
  /-- A null or dangling pointer is followed -/
  | badPointer
  /-- The file of the free map would have to grow while the free map is written
      to it: the free map file has the size of the free map, and the recursion
      that would follow is left out -/
  | freeMapGrows
  deriving DecidableEq, Repr

/-- `struct inode`. -/
structure Inode where
  sector : Sector
  openCnt : Nat
  removed : Bool
  denyWriteCnt : Nat
  data : Memory

structure State where
  /-- `block_size (fs_device)` -/
  size : Nat
  disk : Sector → Memory
  freeMap : List Bool
  /-- `free_map_file` is not null; it is a file on the inode of
      `FREE_MAP_SECTOR`. -/
  freeMapFile : Bool
  openInodes : List Inode
  /-- The answers of the calls of `malloc` and `calloc` to come; behind the end
      of the list they succeed. -/
  mallocs : List Bool

/-- Programs over the file system. -/
abbrev M := EStateM Stop State

namespace State

@[simps -fullyApplied]
def setDisk (s : State) (d : Sector → Memory) : State := { s with disk := d }

@[simps -fullyApplied]
def setFreeMap (s : State) (b : List Bool) : State := { s with freeMap := b }

def setOpenInodes (s : State) (l : List Inode) : State := { s with openInodes := l }

@[simps -fullyApplied]
def setMallocs (s : State) (l : List Bool) : State := { s with mallocs := l }

/-- The open inode of a sector. -/
def inode? (s : State) (sector : Sector) : Option Inode :=
  s.openInodes.find? fun i => i.sector == sector

/-- Assignment to the fields of an open inode. -/
def updateInode (s : State) (sector : Sector) (f : Inode → Inode) : State :=
  s.setOpenInodes (s.openInodes.map fun i => if i.sector = sector then f i else i)

end State

/-! ## The device and the allocator -/

/-- `malloc` or `calloc`: whether it succeeds. -/
def malloc : M Bool := fun s =>
  match s.mallocs with
  | [] => .ok true s
  | a :: rest => .ok a (s.setMallocs rest)

/-- `block_read`. -/
def blockRead (sector : Sector) : M Memory := fun s =>
  if sector < s.size then .ok (s.disk sector) s else .error .pastEnd s

/-- `block_write`. -/
def blockWrite (sector : Sector) (buffer : Memory) : M Unit := fun s =>
  if sector < s.size then .ok () (s.setDisk (Function.update s.disk sector buffer))
  else .error .pastEnd s

/-- A sector of zeros. -/
def zeros : Memory := fun _ => 0

/-- `count` bytes of a sector from `ofs` on. -/
def bytesAt (b : Memory) (ofs count : Nat) : List UInt8 := (List.range count).map fun i => b (ofs + i)

/-- `memcpy (b + ofs, data, data.length)`. -/
def copyTo (b : Memory) (ofs : Nat) (data : List UInt8) : Memory := fun i =>
  if ofs ≤ i then (data[i - ofs]?).getD (b i) else b i

/-! ## Inodes on the device -/

abbrev INODE_MAGIC : Nat := 0x494e4f44

abbrev DIRECT_BLOCKS : Nat := 123

abbrev PTRS_PER_SECTOR : Nat := 128

/-- A 32-bit `int`. -/
def toInt32 (x : Int) : Int := x.bmod (2 ^ 32)

/-- The `length` field, an `off_t`. -/
def length (d : Memory) : Int := toInt32 (word d 0)

def setLength (d : Memory) (n : Int) : Memory := setWord d 0 (n % 2 ^ 32).toNat

def setMagic (d : Memory) (n : Nat) : Memory := setWord d 4 n

/-- The `indirect` field. -/
def indirect (d : Memory) : Sector := word d 500

def setIndirect (d : Memory) (n : Sector) : Memory := setWord d 500 n

/-- The `doubly_indirect` field. -/
def doublyIndirect (d : Memory) : Sector := word d 504

def setDoublyIndirect (d : Memory) (n : Sector) : Memory := setWord d 504 n

/-- The `is_dir` field. -/
def isDir (d : Memory) : Nat := word d 508

def setIsDir (d : Memory) (n : Nat) : Memory := setWord d 508 n

/-- `direct[i]`. -/
def direct (d : Memory) (i : Nat) : M Sector :=
  if i < DIRECT_BLOCKS then pure (word d (8 + 4 * i)) else throw .indexRange

/-- `direct[i] = n`. -/
def setDirect (d : Memory) (i : Nat) (n : Sector) : M Memory :=
  if i < DIRECT_BLOCKS then pure (setWord d (8 + 4 * i) n) else throw .indexRange

/-- `b[i]` for a block of pointers. -/
def ptr (b : Memory) (i : Nat) : M Sector :=
  if i < PTRS_PER_SECTOR then pure (word b (4 * i)) else throw .indexRange

/-- `b[i] = n` for a block of pointers. -/
def setPtr (b : Memory) (i : Nat) (n : Sector) : M Memory :=
  if i < PTRS_PER_SECTOR then pure (setWord b (4 * i) n) else throw .indexRange

/-- `bytes_to_sectors`: the sum is one of `int`s, the quotient becomes a
    `size_t`. -/
def bytesToSectors (size : Int) : Nat :=
  ((toInt32 (size + BLOCK_SECTOR_SIZE - 1)).tdiv BLOCK_SECTOR_SIZE % 2 ^ 32).toNat

/-- `byte_to_sector`; `(block_sector_t) -1` for a position behind the end. -/
def byteToSector (d : Memory) (pos : Nat) : M Sector :=
  let idx := pos / BLOCK_SECTOR_SIZE
  if length d ≤ pos then pure (2 ^ 32 - 1)
  else if idx < DIRECT_BLOCKS then direct d idx
  else if idx - DIRECT_BLOCKS < PTRS_PER_SECTOR then do
    let buffer ← blockRead (indirect d)
    ptr buffer (idx - DIRECT_BLOCKS)
  else do
    let idx := idx - DIRECT_BLOCKS - PTRS_PER_SECTOR
    let outer ← blockRead (doublyIndirect d)
    let inner ← blockRead (← ptr outer (idx / PTRS_PER_SECTOR))
    ptr inner (idx % PTRS_PER_SECTOR)

/-! ## Reading and writing -/

/-- The number of bytes that `inode_read_at` and `inode_write_at` move in one
    iteration: what is left of the request, of the inode and of the sector. -/
def chunkSize (d : Memory) (size offset : Nat) : Nat :=
  let inodeLeft := (length d - offset).toNat
  let sectorLeft := BLOCK_SECTOR_SIZE - offset % BLOCK_SECTOR_SIZE
  let minLeft := if inodeLeft < sectorLeft then inodeLeft else sectorLeft
  if size < minLeft then size else minLeft

/-- The bounce buffer: `malloc` if there is none yet. -/
def getBounce (bounce : Bool) : M Bool := if bounce then pure true else malloc

/-- The loop of `inode_read_at`: the bytes read.  Every iteration reads at least
    one byte, so `size` bounds their number. -/
def readLoop (d : Memory) : Nat → Nat → Nat → Bool → M (List UInt8)
  | 0, _, _, _ => pure []
  | n + 1, size, offset, bounce =>
    if size = 0 then pure []
    else do
      let sector ← byteToSector d offset
      let sectorOfs := offset % BLOCK_SECTOR_SIZE
      let chunk := chunkSize d size offset
      if chunk = 0 then pure []
      else if sectorOfs = 0 ∧ chunk = BLOCK_SECTOR_SIZE then do
        let buffer ← blockRead sector
        let rest ← readLoop d n (size - chunk) (offset + chunk) bounce
        pure (bytesAt buffer 0 chunk ++ rest)
      else do
        if ← getBounce bounce then
          let buffer ← blockRead sector
          let rest ← readLoop d n (size - chunk) (offset + chunk) true
          pure (bytesAt buffer sectorOfs chunk ++ rest)
        else pure []

/-- The loop of `inode_write_at`: the number of bytes written. -/
def writeLoop (d : Memory) : Nat → List UInt8 → Nat → Bool → M Nat
  | 0, _, _, _ => pure 0
  | n + 1, buffer, offset, bounce =>
    if buffer.length = 0 then pure 0
    else do
      let sector ← byteToSector d offset
      let sectorOfs := offset % BLOCK_SECTOR_SIZE
      let sectorLeft := BLOCK_SECTOR_SIZE - sectorOfs
      let chunk := chunkSize d buffer.length offset
      if chunk = 0 then pure 0
      else if sectorOfs = 0 ∧ chunk = BLOCK_SECTOR_SIZE then do
        blockWrite sector (copyTo zeros 0 (buffer.take chunk))
        let rest ← writeLoop d n (buffer.drop chunk) (offset + chunk) bounce
        pure (chunk + rest)
      else do
        if ← getBounce bounce then
          let b ← if 0 < sectorOfs ∨ chunk < sectorLeft then blockRead sector else pure zeros
          blockWrite sector (copyTo b sectorOfs (buffer.take chunk))
          let rest ← writeLoop d n (buffer.drop chunk) (offset + chunk) true
          pure (chunk + rest)
        else pure 0

end Pintos.Fs
