/-
  Pintos.Lib.BitmapWords

  The bitmaps of lib/kernel/bitmap.c as they are stored: an array of 32-bit
  elements, with the assertions of the operations and their arithmetic on `size_t`.
  The operations on the sequence of bits (Pintos.Lib.Bitmap) are what they compute.

  A call returns `none` where an assertion fails, or where its fuel does not suffice.

  Result:
  - `bitmap_scan_and_flip` takes the first group that fits, and changes no other bit
-/

import Pintos.Lib.Bitmap

namespace Pintos.Lib

/-- `struct bitmap`; the elements cover the bits. -/
structure Bitmap where
  bitCnt : Nat
  bits : List (BitVec 32)
  lt : bitCnt < 2 ^ 32
  covers : bitCnt ≤ 32 * bits.length

def BITMAP_ERROR : Nat := 2 ^ 32 - 1

def elemIdx (bitIdx : Nat) : Nat := bitIdx / 32

def bitMask (bitIdx : Nat) : BitVec 32 := 1#32 <<< (bitIdx % 32)

namespace Bitmap

variable {b b' : Bitmap} {start cnt i k : Nat} {value : Bool}

/-- An element is changed. -/
def modify (b : Bitmap) (idx : Nat) (f : BitVec 32 → BitVec 32) : Bitmap :=
  { b with bits := b.bits.modify idx f, covers := (List.length_modify ..).symm ▸ b.covers }

/-- `bitmap_mark` -/
def mark (b : Bitmap) (bitIdx : Nat) : Bitmap := b.modify (elemIdx bitIdx) (· ||| bitMask bitIdx)

/-- `bitmap_reset` -/
def reset (b : Bitmap) (bitIdx : Nat) : Bitmap :=
  b.modify (elemIdx bitIdx) (· &&& ~~~bitMask bitIdx)

/-- `bitmap_set` -/
def set (b : Bitmap) (idx : Nat) (value : Bool) : Option Bitmap :=
  if idx < b.bitCnt then some (if value then b.mark idx else b.reset idx) else none

/-- `bitmap_test` -/
def test (b : Bitmap) (idx : Nat) : Option Bool :=
  if idx < b.bitCnt then some (b.bits.getD (elemIdx idx) 0 &&& bitMask idx != 0) else none

/-- The loop of `bitmap_set_multiple`, with `n` iterations left. -/
def setLoop (start : Nat) (value : Bool) : Nat → Nat → Bitmap → Option Bitmap
  | 0, _, b => some b
  | n + 1, i, b => (b.set ((start + i) % 2 ^ 32) value).bind (setLoop start value n (i + 1))

/-- `bitmap_set_multiple` -/
def setMultiple (b : Bitmap) (start cnt : Nat) (value : Bool) : Option Bitmap :=
  if start ≤ b.bitCnt ∧ (start + cnt) % 2 ^ 32 ≤ b.bitCnt then setLoop start value cnt 0 b else none

/-- The loop of `bitmap_contains`, with `n` iterations left. -/
def containsLoop (b : Bitmap) (start : Nat) (value : Bool) : Nat → Nat → Option Bool
  | 0, _ => some false
  | n + 1, i => (b.test ((start + i) % 2 ^ 32)).bind fun bit =>
      if bit = value then some true else containsLoop b start value n (i + 1)

/-- `bitmap_contains` -/
def contains (b : Bitmap) (start cnt : Nat) (value : Bool) : Option Bool :=
  if start ≤ b.bitCnt ∧ (start + cnt) % 2 ^ 32 ≤ b.bitCnt then b.containsLoop start value cnt 0
  else none

/-- The loop of `bitmap_scan`. -/
def scanLoop (b : Bitmap) (cnt : Nat) (value : Bool) (last : Nat) : Nat → Nat → Option Nat
  | 0, _ => none
  | fuel + 1, i =>
    if i ≤ last then
      (b.contains i cnt !value).bind fun found =>
        if found then scanLoop b cnt value last fuel ((i + 1) % 2 ^ 32) else some i
    else some BITMAP_ERROR

/-- `bitmap_scan` -/
def scan (b : Bitmap) (start cnt : Nat) (value : Bool) : Option Nat :=
  if start ≤ b.bitCnt then
    if cnt ≤ b.bitCnt then b.scanLoop cnt value (b.bitCnt - cnt) (b.bitCnt + 2) start
    else some BITMAP_ERROR
  else none

/-- `bitmap_scan_and_flip` -/
def scanAndFlip (b : Bitmap) (start cnt : Nat) (value : Bool) : Option (Nat × Bitmap) :=
  (b.scan start cnt value).bind fun idx =>
    if idx ≠ BITMAP_ERROR then (b.setMultiple idx cnt !value).map fun b' => (idx, b')
    else some (idx, b)

/-! ## Bits of elements -/

/-- The bit with index `k` of the elements, also behind the last bit of the bitmap. -/
def bit (b : Bitmap) (k : Nat) : Bool := (b.bits.getD (elemIdx k) 0).getLsbD (k % 32)

/-- The sequence of bits the bitmap stands for. -/
def toBits (b : Bitmap) : List Bool := (List.range b.bitCnt).map b.bit

theorem toBits_length : b.toBits.length = b.bitCnt := by simp [toBits]

theorem toBits_getElem? (hk : k < b.bitCnt) : b.toBits[k]? = some (b.bit k) := by simp [toBits, hk]

/-- In the element of bit `i` the mask selects that bit. -/
theorem getLsbD_bitMask (h : elemIdx k = elemIdx i) : (bitMask i).getLsbD (k % 32) = decide (k = i) := by
  rw [elemIdx, elemIdx] at h
  rw [bitMask, ← BitVec.twoPow_eq, BitVec.getLsbD_twoPow, decide_eq_true (Nat.mod_lt i (by decide)),
    Bool.true_and, decide_eq_decide]
  omega

theorem test_eq (hi : i < b.bitCnt) : b.test i = some (b.bit i) := by
  have hmask : BitVec.twoPow 32 (i % 32) ≠ 0#32 := by
    intro hzero
    have := congrArg (·.getLsbD (i % 32)) hzero
    simp [Nat.mod_lt] at this
  rw [test, if_pos hi, bit, bitMask, ← BitVec.twoPow_eq, BitVec.and_twoPow]
  cases (b.bits.getD (elemIdx i) 0).getLsbD (i % 32) with
  | true => simp [hmask]
  | false => rfl

/-- `b'` is `b` with the bits of `[lo, hi)` set to the value. -/
structure Assigned (b b' : Bitmap) (lo hi : Nat) (value : Bool) : Prop where
  bitCnt : b'.bitCnt = b.bitCnt
  length : b'.bits.length = b.bits.length
  bit : ∀ k, b'.bit k = if lo ≤ k ∧ k < hi then value else b.bit k

theorem bit_modify {f : BitVec 32 → BitVec 32} (hi : i < b.bitCnt) :
    (b.modify (elemIdx i) f).bit k =
      if elemIdx k = elemIdx i then (f (b.bits.getD (elemIdx k) 0)).getLsbD (k % 32) else b.bit k := by
  have hlt : elemIdx i < b.bits.length := by
    have := b.covers
    rw [elemIdx]
    omega
  simp only [bit, modify, List.getD_eq_getElem?_getD, List.getElem?_modify]
  by_cases h : elemIdx k = elemIdx i
  · rw [if_pos h, h, List.getElem?_eq_getElem hlt]
    simp
  · rw [if_neg h]
    simp [Ne.symm h]

theorem set_spec (hi : i < b.bitCnt) (value : Bool) :
    ∃ b', b.set i value = some b' ∧ Assigned b b' i (i + 1) value := by
  have hset : b.set i value = some (b.modify (elemIdx i) fun w =>
      if value then w ||| bitMask i else w &&& ~~~bitMask i) := by
    rw [set, if_pos hi]
    cases value <;> rfl
  refine ⟨_, hset, rfl, List.length_modify .., fun k => ?_⟩
  rw [bit_modify hi]
  split
  case isTrue h =>
    rw [apply_ite (BitVec.getLsbD · (k % 32)), BitVec.getLsbD_or, BitVec.getLsbD_and,
      BitVec.getLsbD_not, getLsbD_bitMask h, ← bit, decide_eq_true (Nat.mod_lt k (by decide))]
    by_cases heq : k = i
    · rw [if_pos (show i ≤ k ∧ k < i + 1 by omega)]
      cases value <;> simp [heq]
    · rw [if_neg (show ¬(i ≤ k ∧ k < i + 1) by omega)]
      cases value <;> simp [heq]
  case isFalse h =>
    rw [if_neg]
    intro hk
    exact h (by rw [show k = i by omega])

/-! ## Loops -/

/-- By induction on the iterations left. -/
theorem setLoop_spec (n i : Nat) (hle : start + i + n ≤ b.bitCnt) :
    ∃ b', setLoop start value n i b = some b' ∧ Assigned b b' (start + i) (start + i + n) value := by
  induction n generalizing i b with
  | zero =>
    refine ⟨b, rfl, rfl, rfl, fun k => ?_⟩
    rw [if_neg (by omega)]
  | succ n ih =>
    have hlt := b.lt
    obtain ⟨b₁, hset, h₁⟩ := set_spec (b := b) (i := start + i) (by omega) value
    obtain ⟨b₂, hloop, h₂⟩ := ih (b := b₁) (i + 1) (by rw [h₁.bitCnt]; omega)
    refine ⟨b₂, ?_, h₂.bitCnt.trans h₁.bitCnt, h₂.length.trans h₁.length, fun k => ?_⟩
    · rw [setLoop, Nat.mod_eq_of_lt (by omega), hset]
      exact hloop
    · rw [h₂.bit, h₁.bit]
      split
      · rw [if_pos (by omega)]
      · by_cases hk : start + i ≤ k ∧ k < start + i + 1
        · rw [if_pos hk, if_pos (by omega)]
        · rw [if_neg hk, if_neg (by omega)]

theorem setMultiple_spec (hle : start + cnt ≤ b.bitCnt) (value : Bool) :
    ∃ b', b.setMultiple start cnt value = some b' ∧ Assigned b b' start (start + cnt) value := by
  have hlt := b.lt
  rw [setMultiple, if_pos ⟨by omega, by rw [Nat.mod_eq_of_lt (by omega)]; exact hle⟩]
  exact setLoop_spec cnt 0 hle

theorem containsLoop_eq (n i : Nat) (hle : start + i + n ≤ b.bitCnt) :
    b.containsLoop start value n i = some (bitmapContains b.toBits (start + i) n value) := by
  induction n generalizing i with
  | zero => rfl
  | succ n ih =>
    have hlt := b.lt
    rw [containsLoop, Nat.mod_eq_of_lt (by omega), test_eq (by omega), Option.bind_some,
      ih (i + 1) (by omega)]
    have hsplit : bitmapContains b.toBits (start + i) (n + 1) value =
        (b.bit (start + i) == value || bitmapContains b.toBits (start + (i + 1)) n value) := by
      simp [bitmapContains, List.range_succ_eq_map, List.any_map, toBits_getElem? (b := b)
        (k := start + i) (by omega), Function.comp_def, Nat.add_assoc, Nat.add_comm 1]
    rw [hsplit]
    split
    case isTrue h => simp [h]
    case isFalse h => simp [h]

theorem contains_eq (hle : start + cnt ≤ b.bitCnt) (value : Bool) :
    b.contains start cnt value = some (bitmapContains b.toBits start cnt value) := by
  have hlt := b.lt
  rw [contains, if_pos ⟨by omega, by rw [Nat.mod_eq_of_lt (by omega)]; exact hle⟩]
  exact containsLoop_eq cnt 0 hle

/-- By induction on the fuel, which exceeds the positions that are left; with a
    group of no bits the loop ends at once, so that its index does not wrap. -/
theorem scanLoop_eq (fuel : Nat) {last : Nat} (hlast : last + cnt = b.bitCnt) (hi : i ≤ b.bitCnt)
    (hfuel : last + 1 - i < fuel) :
    b.scanLoop cnt value last fuel i =
      some (((List.range' i (last + 1 - i)).find? fun i =>
        !bitmapContains b.toBits i cnt (!value)).getD BITMAP_ERROR) := by
  induction fuel generalizing i with
  | zero => omega
  | succ fuel ih =>
    rw [scanLoop]
    split
    case isFalse h =>
      rw [show last + 1 - i = 0 by omega]
      rfl
    case isTrue h =>
      rw [contains_eq (by omega), Option.bind_some, show last + 1 - i = last - i + 1 by omega,
        List.range'_succ, List.find?_cons]
      cases hc : bitmapContains b.toBits i cnt (!value) with
      | false => rfl
      | true =>
        have hlt := b.lt
        have hcnt : cnt ≠ 0 := by
          rintro rfl
          cases hc
        rw [if_pos rfl, Nat.mod_eq_of_lt (by omega), ih (by omega) (by omega),
          show last + 1 - (i + 1) = last - i by omega]
        rfl

theorem scan_eq (hstart : start ≤ b.bitCnt) (cnt : Nat) (value : Bool) :
    b.scan start cnt value = some ((bitmapScan b.toBits start cnt value).getD BITMAP_ERROR) := by
  rw [scan, if_pos hstart, bitmapScan, toBits_length]
  split
  case isTrue h =>
    rw [scanLoop_eq _ (Nat.sub_add_cancel h) hstart (by omega)]
  case isFalse h => rfl

/-- `bitmap_scan_and_flip` takes the first group that fits and flips its bits; the
    other bits of the elements stay, also those behind the end of the bitmap. -/
theorem scanAndFlip_first_fit {b : Bitmap} {start : Nat} (hstart : start ≤ b.bitCnt) (cnt : Nat)
    (value : Bool) :
    ∃ idx b', b.scanAndFlip start cnt value = some (idx, b') ∧ b'.bitCnt = b.bitCnt ∧
      b'.bits.length = b.bits.length ∧
      ((∃ i, start ≤ i ∧ BitGroup b.toBits cnt value i) →
        IsLeast {i | start ≤ i ∧ BitGroup b.toBits cnt value i} idx ∧
        ∀ k, b'.bit k = if idx ≤ k ∧ k < idx + cnt then !value else b.bit k) ∧
      ((¬∃ i, start ≤ i ∧ BitGroup b.toBits cnt value i) → idx = BITMAP_ERROR ∧ b' = b) := by
  rw [scanAndFlip, scan_eq hstart, Option.bind_some]
  cases hscan : bitmapScan b.toBits start cnt value with
  | none =>
    refine ⟨BITMAP_ERROR, b, if_neg (by simp), rfl, rfl, ?_, fun _ => ⟨rfl, rfl⟩⟩
    rintro ⟨i, hi, hg⟩
    exact absurd hg (not_bitGroup_of_bitmapScan hscan hi)
  | some idx =>
    have hleast := bitmapScan_isLeast hscan
    have hle : idx + cnt ≤ b.bitCnt := toBits_length (b := b) ▸ hleast.1.2.1
    have hex : ∃ i, start ≤ i ∧ BitGroup b.toBits cnt value i := ⟨idx, hleast.1⟩
    by_cases herr : idx = BITMAP_ERROR
    · -- the group of no bits behind the last bit of the largest bitmap
      have hcnt : cnt = 0 := by
        have hlt := b.lt
        rw [herr, BITMAP_ERROR] at hle
        omega
      refine ⟨idx, b, if_neg (not_not.mpr herr), rfl, rfl, fun _ => ⟨hleast, fun k => ?_⟩,
        fun hno => absurd hex hno⟩
      rw [if_neg (by omega)]
    · obtain ⟨b', hset, h⟩ := setMultiple_spec hle !value
      refine ⟨idx, b', ?_, h.bitCnt, h.length, fun _ => ⟨hleast, h.bit⟩, fun hno => absurd hex hno⟩
      rw [Option.getD_some, if_pos herr, hset]
      rfl

/-- Bits 33 and 34 are the first two clear bits of a bitmap of 40 bits. -/
theorem scanAndFlip_first_fit_two : ∃ idx b', (Bitmap.mk 40 [0xffffffff#32, 0xffffffb9#32] (by decide)
    (by decide)).scanAndFlip 0 2 false = some (idx, b') ∧ idx = 33 := by
  obtain ⟨idx, b', hrun, -⟩ := @scanAndFlip_first_fit ⟨40, [0xffffffff#32, 0xffffffb9#32],
    by decide, by decide⟩ 0 (by decide) 2 false
  have hidx : ((Bitmap.mk 40 [0xffffffff#32, 0xffffffb9#32] (by decide) (by decide)).scanAndFlip 0 2
    false).map Prod.fst = some 33 := by decide
  exact ⟨idx, b', hrun, by simpa [hrun] using hidx⟩

end Bitmap

end Pintos.Lib
