/-
  Pintos.Lib.Bitmap

  The bitmap operations of lib/kernel/bitmap.c on the sequence of bits the
  bitmap stands for: `bitmap_contains`, `bitmap_all`, `bitmap_set_multiple`,
  `bitmap_scan` and `bitmap_scan_and_flip`.  `BITMAP_ERROR` is `none`.

  Most allocators of the kernel ask for one bit at a time; the page allocator asks
  for groups.
-/

import Mathlib

namespace Pintos.Lib

/-- `bitmap_contains`: some bit of `[start, start + cnt)` has the value. -/
def bitmapContains (b : List Bool) (start cnt : Nat) (value : Bool) : Bool :=
  (List.range cnt).any fun i => b[start + i]? == some value

/-- `bitmap_all`: every bit of `[start, start + cnt)` is set. -/
def bitmapAll (b : List Bool) (start cnt : Nat) : Bool :=
  !bitmapContains b start cnt false

/-- `bitmap_set_multiple`. -/
def bitmapSetMultiple (b : List Bool) (start cnt : Nat) (value : Bool) : List Bool :=
  (List.range cnt).foldl (fun b i => b.set (start + i) value) b

/-- `bitmap_scan`: the first group of `cnt` bits at or after `start` that all
    have the value. -/
def bitmapScan (b : List Bool) (start cnt : Nat) (value : Bool) : Option Nat :=
  if cnt ≤ b.length then
    (List.range' start (b.length - cnt + 1 - start)).find? fun i =>
      !bitmapContains b i cnt (!value)
  else none

/-- `bitmap_scan_and_flip`: the index found and the bitmap with the group
    flipped. -/
def bitmapScanAndFlip (b : List Bool) (start cnt : Nat) (value : Bool) :
    Option (Nat × List Bool) :=
  (bitmapScan b start cnt value).map fun i => (i, bitmapSetMultiple b i cnt (!value))

/-! ## One bit at a time -/

@[simp] theorem bitmapContains_one (b : List Bool) (i : Nat) (value : Bool) :
    bitmapContains b i 1 value = (b[i]? == some value) := by
  simp [bitmapContains, List.range_succ]

@[simp] theorem bitmapAll_one (b : List Bool) (i : Nat) :
    bitmapAll b i 1 = (b[i]? != some false) := by
  simp [bitmapAll, bne]

@[simp] theorem bitmapSetMultiple_one (b : List Bool) (i : Nat) (value : Bool) :
    bitmapSetMultiple b i 1 value = b.set i value := by
  simp [bitmapSetMultiple, List.range_succ]

/-! ## Groups of bits -/

/-- The group of `cnt` bits at `i` is inside the bitmap and has the value. -/
def BitGroup (b : List Bool) (cnt : Nat) (value : Bool) (i : Nat) : Prop :=
  i + cnt ≤ b.length ∧ ∀ k, i ≤ k → k < i + cnt → b[k]? = some value

theorem bitGroup_iff {b : List Bool} {cnt i : Nat} {value : Bool} (h : i + cnt ≤ b.length) :
    BitGroup b cnt value i ↔ bitmapContains b i cnt (!value) = false := by
  simp only [BitGroup, h, true_and, bitmapContains, List.any_eq_false, List.mem_range, beq_iff_eq]
  constructor
  · intro hg k hk
    simp [hg (i + k) (by omega) (by omega)]
  · intro hg k hik hk
    have hk' := hg (k - i) (by omega)
    rw [Nat.add_sub_cancel' hik, List.getElem?_eq_getElem (by omega)] at hk'
    rw [List.getElem?_eq_getElem (by omega)]
    simpa using hk'

/-- A scan finds the first group. -/
theorem bitmapScan_isLeast {b : List Bool} {start cnt i : Nat} {value : Bool}
    (h : bitmapScan b start cnt value = some i) :
    IsLeast {i | start ≤ i ∧ BitGroup b cnt value i} i := by
  simp only [bitmapScan] at h
  split at h
  case isTrue =>
    obtain ⟨hfound, hmem, hfirst⟩ := List.find?_range'_eq_some.mp h
    rw [List.mem_range'_1] at hmem
    refine ⟨⟨hmem.1, (bitGroup_iff (by omega)).mpr (by simpa using hfound)⟩, fun j ⟨hj, hg⟩ => ?_⟩
    by_contra hlt
    have := hfirst j hj (by omega)
    rw [(bitGroup_iff hg.1).mp hg] at this
    cases this
  case isFalse => cases h

/-- A scan that fails has not overlooked a group. -/
theorem not_bitGroup_of_bitmapScan {b : List Bool} {start cnt i : Nat} {value : Bool}
    (h : bitmapScan b start cnt value = none) (hi : start ≤ i) : ¬ BitGroup b cnt value i := by
  intro hg
  have hle := hg.1
  rw [bitmapScan, if_pos (by omega), List.find?_range'_eq_none] at h
  have := h i hi (by omega)
  rw [(bitGroup_iff hle).mp hg] at this
  cases this

/-- A group is taken: it was clear, and now it is set. -/
theorem bitmapScanAndFlip_group {b b' : List Bool} {cnt i : Nat}
    (h : bitmapScanAndFlip b 0 cnt false = some (i, b')) :
    i + cnt ≤ b.length ∧ (∀ k, i ≤ k → k < i + cnt → b[k]? = some false) ∧
      b' = bitmapSetMultiple b i cnt true := by
  obtain ⟨j, hj, heq⟩ := Option.map_eq_some_iff.mp h
  simp only [Bool.not_false, Prod.mk.injEq] at heq
  obtain ⟨rfl, rfl⟩ := heq
  obtain ⟨-, hle, hclear⟩ := (bitmapScan_isLeast hj).1
  exact ⟨hle, hclear, rfl⟩

/-- A one-bit allocation finds a clear bit and sets it. -/
theorem bitmapScanAndFlip_some {b b' : List Bool} {i : Nat}
    (h : bitmapScanAndFlip b 0 1 false = some (i, b')) :
    b[i]? = some false ∧ b' = b.set i true := by
  obtain ⟨-, hclear, rfl⟩ := bitmapScanAndFlip_group h
  exact ⟨hclear i (Nat.le_refl i) (Nat.lt_succ_self i), bitmapSetMultiple_one ..⟩

/-- A one-bit allocation fails only when no bit is clear. -/
theorem bitmapScanAndFlip_none {b : List Bool} (h : bitmapScanAndFlip b 0 1 false = none) (i : Nat) :
    b[i]? ≠ some false := by
  intro hi
  refine not_bitGroup_of_bitmapScan (Option.map_eq_none_iff.mp h) (Nat.zero_le i)
    ⟨(List.getElem?_eq_some_iff.mp hi).1, fun k hik hk => ?_⟩
  rwa [show k = i by omega]

end Pintos.Lib
