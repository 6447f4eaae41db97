/-
  Pintos.Vm.Swap

  vm/swap.c: slots of eight sectors on the swap device, and the eviction of a
  frame to its file or to a slot.

  `swapEvictFrame` returns `none` where the source fails an assertion,
  otherwise the new state and the frame it freed, if any.
-/

import Pintos.Vm.State

namespace Pintos.Vm

open Pintos.Base Pintos.Lib Function

/-! ## Slots on the device -/

/-- `read_from_block`: eight sectors into a frame. -/
def readFromBlock (s : State) (index : Nat) (d : PageData) : PageData :=
  (List.range 8).foldl
    (fun d i off =>
      if i * BLOCK_SECTOR_SIZE ≤ off ∧ off < (i + 1) * BLOCK_SECTOR_SIZE then
        s.swapBlock (index * 8 + i) (off - i * BLOCK_SECTOR_SIZE)
      else d off)
    d

/-- `write_to_block`: a frame into eight sectors. -/
def writeToBlock (s : State) (index : Nat) (d : PageData) : State :=
  let block := (List.range 8).foldl
    (fun b i => update b (index * 8 + i) fun off => d (i * BLOCK_SECTOR_SIZE + off))
    s.swapBlock
  { s with swapBlock := block }

/-- `swap_free_slot`. -/
def swapFreeSlot (s : State) (index : Option Nat) : State :=
  match s.swapSlots, index with
  | some b, some i => if i < b.length then s.setSwapSlots (b.set i false) else s
  | _, _ => s

/-- `swap_read_slot`: the buffer with the slot read into it. -/
def swapReadSlot (s : State) (index : Option Nat) (dst : PageData) : Option PageData :=
  match s.swapSlots, index with
  | some b, some i => if i < b.length then some (readFromBlock s i dst) else none
  | _, _ => none

/-! ## Eviction -/

/-- The end of `swap_evict_frame` for a page that stays in its file. -/
def evictToFile (s : State) (fte : FrameTableEntry) (page : PageNo) (e : SupPageTableEntry) :
    Option (State × Option Frame) :=
  let s := pagedirClearPage s fte.owner page
  let s := s.setSpte fte.owner page
    (some { e with isLoaded := false, source := .fileBacked, swapSlotIndex := none })
  some (s, some fte.frame)

/-- The end of `swap_evict_frame` for a page that goes to a slot.  Without a swap
    device it panics in `lock_acquire`: `swap_init` leaves the lock uninitialised. -/
def evictToSwap (s : State) (fte : FrameTableEntry) (page : PageNo) (e : SupPageTableEntry) :
    Option (State × Option Frame) :=
  match s.swapSlots with
  | none => none
  | some b =>
    match bitmapScanAndFlip b 0 1 false with
    | none => some (s.setFrameTable (s.frameTable ++ [fte]), none)
    | some (index, b') =>
      let s := writeToBlock (s.setSwapSlots b') index (s.mem fte.frame)
      let s := s.setSpte fte.owner page
        (some { e with swapSlotIndex := some index, isLoaded := false, source := .swap })
      let s := pagedirClearPage s fte.owner page
      some (s, some fte.frame)

/-- `swap_evict_frame` once the victim and its supplemental entry are known. -/
def evictEntry (s : State) (fte : FrameTableEntry) (page : PageNo) (e : SupPageTableEntry)
    (grow : Bool) : Option (State × Option Frame) :=
  let dirty := pagedirIsDirty s fte.owner page
  if e.source = .fileBacked then
    let useSwap := e.mapping.isNone && e.writable
    if e.mapping.isSome && dirty then
      let (written, s) := fileWriteAt s e.file ((s.mem fte.frame).bytes e.readBytes) e.ofs grow
      if written ≠ e.readBytes then some (s.setFrameTable (s.frameTable ++ [fte]), none)
      else evictToFile s fte page e
    else if useSwap then evictToSwap s fte page e
    else evictToFile s fte page e
  else evictToSwap s fte page e

/-- `swap_evict_frame`. -/
def swapEvictFrame (s : State) (victim : Option Nat) (grow : Bool) :
    Option (State × Option Frame) :=
  match frameTablePop s victim with
  | none => some (s, none)
  | some (fte, s) =>
    match fte.aux.bind fun page => (s.spte fte.owner page).map fun e => (page, e) with
    | none => some (s, none)
    | some (page, e) => evictEntry s fte page e grow

/-- `swap_reclaim_page`: the state with the page read into the frame, or `none`
    where the source returns false. -/
def swapReclaimPage (s : State) (e : SupPageTableEntry) (k : Frame) : Option State :=
  if e.isLoaded || e.source ≠ .swap then none
  else (swapReadSlot s e.swapSlotIndex (s.mem k)).map (s.setMem k)

/-! ## What the loops over sectors do -/

/-- The bytes of a slot. -/
def slotData (s : State) (index : Nat) : PageData :=
  fun off => s.swapBlock (index * 8 + off / BLOCK_SECTOR_SIZE) (off % BLOCK_SECTOR_SIZE)

/-- Reading the first `n` sectors of a slot fills the first `n` sectors of the
    buffer. -/
theorem readSectors_apply (s : State) (index n off : Nat) (d : PageData) : (List.range n).foldl
      (fun d i off =>
        if i * BLOCK_SECTOR_SIZE ≤ off ∧ off < (i + 1) * BLOCK_SECTOR_SIZE then
          s.swapBlock (index * 8 + i) (off - i * BLOCK_SECTOR_SIZE)
        else d off) d off =
      if off < n * BLOCK_SECTOR_SIZE then slotData s index off else d off := by
  induction n with
  | zero => simp
  | succ n ih =>
    rw [List.range_succ, List.foldl_append]
    simp only [List.foldl_cons, List.foldl_nil, ih]
    by_cases hin : n * BLOCK_SECTOR_SIZE ≤ off ∧ off < (n + 1) * BLOCK_SECTOR_SIZE
    · have hdiv : off / BLOCK_SECTOR_SIZE = n := by
        simp only [BLOCK_SECTOR_SIZE] at hin ⊢
        omega
      have hmod : off % BLOCK_SECTOR_SIZE = off - n * BLOCK_SECTOR_SIZE := by
        simp only [BLOCK_SECTOR_SIZE] at hin ⊢
        omega
      rw [if_pos hin, if_pos hin.2, slotData, hdiv, hmod]
    · rw [if_neg hin]
      simp only [BLOCK_SECTOR_SIZE] at hin ⊢
      split <;> split <;> first | rfl | omega

/-- A page read from a slot holds the slot's bytes. -/
theorem readFromBlock_apply (s : State) (index : Nat) (d : PageData) {off : Nat}
    (h : off < PGSIZE) : readFromBlock s index d off = slotData s index off := by
  rw [readFromBlock, readSectors_apply, if_pos (by simp only [PGSIZE] at h; omega)]

/-- Writing the first `n ≤ 8` sectors of a slot changes those sectors only. -/
theorem writeSectors_apply (b : Nat → Nat → UInt8) (index n : Nat) (d : PageData) (sector : Nat) :
    (List.range n).foldl
      (fun b i => update b (index * 8 + i) fun off => d (i * BLOCK_SECTOR_SIZE + off))
      b sector =
      if index * 8 ≤ sector ∧ sector < index * 8 + n then
        fun off => d ((sector - index * 8) * BLOCK_SECTOR_SIZE + off)
      else b sector := by
  induction n with
  | zero => rw [if_neg (by omega)]; rfl
  | succ n ih =>
    rw [List.range_succ, List.foldl_append]
    simp only [List.foldl_cons, List.foldl_nil, update_apply, ih]
    by_cases hs : sector = index * 8 + n
    · rw [if_pos hs, if_pos (by omega), show sector - index * 8 = n by omega]
    · rw [if_neg hs]
      split <;> split <;> first | rfl | omega

/-- The slot written holds the frame, and the other slots keep their bytes. -/
theorem slotData_writeToBlock (s : State) (index j : Nat) (d : PageData) {off : Nat}
    (h : off < PGSIZE) :
    slotData (writeToBlock s index d) j off = if j = index then d off else slotData s j off := by
  simp only [slotData, writeToBlock, writeSectors_apply]
  simp only [PGSIZE, BLOCK_SECTOR_SIZE] at h ⊢
  by_cases hj : j = index
  · subst hj
    rw [if_pos (by omega), if_pos rfl]
    congr 1
    omega
  · rw [if_neg (by omega), if_neg hj]

end Pintos.Vm
