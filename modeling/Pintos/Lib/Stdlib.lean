/-
  Pintos.Lib.Stdlib

  `binary_search` (lib/stdlib.c): binary search in an array of elements of any
  size, with a comparison function.  Pointers into an array do not wrap around,
  since an array ends below the end of the address space.

  A call returns `none` where it compares an element outside its array, or where
  its fuel does not suffice.

  Result:
  - binary search in a sorted array finds an equal element if there is one
-/

import Pintos.Base.Memory

namespace Pintos.Lib

open Pintos.Base

/-- A comparison function of `strcmp` type whose order is a total preorder. -/
structure Comparison where
  compare : List UInt8 → List UInt8 → Int
  swap : ∀ a b, 0 < compare a b ↔ compare b a < 0
  trans : ∀ a b c, compare a b ≤ 0 → compare b c ≤ 0 → compare a c ≤ 0

/-- An array of `cnt` elements of `size` bytes. -/
structure ArrayObject where
  array : Nat
  cnt : Nat
  size : Nat
  size_pos : 0 < size
  fits : array + cnt * size < 2 ^ 32

/-- The element of `size` bytes at `p`. -/
def elemAt (m : Memory) (size p : Nat) : List UInt8 := (List.range size).map fun k => m (p + k)

namespace Comparison

variable {c : Comparison} {x y z : List UInt8}

theorem neg_of_neg_of_le (h : c.compare x y < 0) (hle : c.compare y z ≤ 0) : c.compare x z < 0 := by
  by_contra hcon
  have hyx : 0 < c.compare y x := (c.swap y x).mpr h
  have hzx : c.compare z x ≤ 0 := by
    have := c.swap z x
    omega
  have := c.trans y z x hle hzx
  omega

theorem pos_of_pos_of_le (h : 0 < c.compare x y) (hle : c.compare z y ≤ 0) : 0 < c.compare x z := by
  by_contra hcon
  have := c.trans x z y (by omega) hle
  omega

end Comparison

variable (c : Comparison) (a : ArrayObject) (m : Memory)

/-! ## Binary search -/

namespace ArrayObject

/-- The address of the element with index `k`, from 0. -/
def addr (k : Nat) : Nat := a.array + k * a.size

def elem (k : Nat) : List UInt8 := elemAt m a.size (a.addr k)

/-- `p` is the address of an element. -/
def Holds (p : Nat) : Prop :=
  a.array ≤ p ∧ p < a.array + a.cnt * a.size ∧ (p - a.array) % a.size = 0

instance (p : Nat) : Decidable (a.Holds p) := inferInstanceAs (Decidable (_ ∧ _))

end ArrayObject

/-- The loop of `binary_search`; a null pointer is `some none`. -/
def searchLoop (key : List UInt8) : Nat → Nat → Nat → Option (Option Nat)
  | 0, _, _ => none
  | fuel + 1, first, last =>
    if first < last then
      let range := (last - first) / a.size
      let middle := first + range / 2 * a.size
      if a.Holds middle then
        let cmp := c.compare key (elemAt m a.size middle)
        if cmp < 0 then searchLoop key fuel first middle
        else if 0 < cmp then searchLoop key fuel (middle + a.size) last
        else some (some middle)
      else none
    else some none

/-- `binary_search` -/
def binarySearch (fuel : Nat) (key : List UInt8) : Option (Option Nat) :=
  searchLoop c a m key fuel a.array (a.array + a.size * a.cnt)

variable {c a m}

theorem ArrayObject.holds_addr {k : Nat} (hk : k < a.cnt) : a.Holds (a.addr k) := by
  have := (Nat.mul_lt_mul_right a.size_pos).mpr hk
  refine ⟨Nat.le_add_right .., ?_, ?_⟩
  · rw [addr]
    omega
  · rw [addr, Nat.add_sub_cancel_left, Nat.mul_mod_left]

theorem ArrayObject.addr_lt_addr {i j : Nat} (h : i < j) : a.addr i < a.addr j :=
  Nat.add_lt_add_left (Nat.mul_lt_mul_of_pos_right h a.size_pos) _

/-- The middle of a range of elements. -/
theorem ArrayObject.middle_eq (lo hi : Nat) :
    a.addr lo + (a.addr hi - a.addr lo) / a.size / 2 * a.size = a.addr (lo + (hi - lo) / 2) := by
  rw [addr, addr, addr, Nat.add_sub_add_left, ← Nat.sub_mul, Nat.mul_div_cancel _ a.size_pos,
    Nat.add_assoc, ← Nat.add_mul]

/-- What a search may return. -/
structure Found (c : Comparison) (a : ArrayObject) (m : Memory) (key : List UInt8) (r : Option Nat) :
    Prop where
  equal : ∀ p ∈ r, ∃ k < a.cnt, p = a.addr k ∧ c.compare key (a.elem m k) = 0
  missing : r = none → ∀ k < a.cnt, c.compare key (a.elem m k) ≠ 0

/-- The elements before the range are below the key and those behind it above:
    by induction on the fuel, for ranges of fewer elements. -/
theorem searchLoop_found (key : List UInt8) {fuel : Nat} (lo hi : Nat)
    (hsorted : ∀ i j, i < j → j < a.cnt → c.compare (a.elem m i) (a.elem m j) ≤ 0)
    (hlo : ∀ k < lo, 0 < c.compare key (a.elem m k)) (hcnt : hi ≤ a.cnt)
    (hhi : ∀ k, hi ≤ k → k < a.cnt → c.compare key (a.elem m k) < 0) (hfuel : hi - lo < fuel) :
    ∃ r, searchLoop c a m key fuel (a.addr lo) (a.addr hi) = some r ∧ Found c a m key r := by
  induction fuel generalizing lo hi with
  | zero => omega
  | succ fuel ih =>
    rw [searchLoop]
    by_cases hlt : lo < hi
    case neg =>
      have hle : ¬ a.addr lo < a.addr hi := by
        rw [ArrayObject.addr, ArrayObject.addr, Nat.add_lt_add_iff_left,
          Nat.mul_lt_mul_right a.size_pos]
        exact hlt
      refine ⟨none, if_neg hle, by simp, fun _ k hk => ?_⟩
      rcases Nat.lt_or_ge k lo with hkl | hkl
      · exact (hlo k hkl).ne'
      · exact (hhi k (by omega) hk).ne
    case pos =>
      have hmid : lo + (hi - lo) / 2 < a.cnt := by omega
      simp only [if_pos (a.addr_lt_addr hlt), a.middle_eq, if_pos (a.holds_addr hmid)]
      generalize hm : lo + (hi - lo) / 2 = mid at hmid
      change ∃ r, (if c.compare key (a.elem m mid) < 0 then _ else _) = some r ∧ _
      split
      case isTrue hneg =>
        refine ih lo mid hlo (by omega) (fun k hk hkc => ?_) (by omega)
        rcases Nat.eq_or_lt_of_le hk with rfl | hk
        · exact hneg
        · exact Comparison.neg_of_neg_of_le hneg (hsorted mid k hk hkc)
      case isFalse hnonneg =>
        split
        case isTrue hpos =>
          have hnext : a.addr mid + a.size = a.addr (mid + 1) := by
            rw [ArrayObject.addr, ArrayObject.addr, Nat.add_assoc, ← Nat.succ_mul]
          rw [hnext]
          refine ih (mid + 1) hi (fun k hk => ?_) hcnt hhi (by omega)
          rcases Nat.eq_or_lt_of_le (Nat.le_of_lt_succ hk) with rfl | hk
          · exact hpos
          · exact Comparison.pos_of_pos_of_le hpos (hsorted k mid hk hmid)
        case isFalse hnonpos =>
          have hzero : ¬ 0 < c.compare key (a.elem m mid) := hnonpos
          refine ⟨some (a.addr mid), rfl, ?_, by simp⟩
          rintro p ⟨⟩
          exact ⟨mid, hmid, rfl, by omega⟩

/-- Binary search in a sorted array returns an element that compares equal to
    the key, or a null pointer if there is none. -/
theorem binarySearch_correct (c : Comparison) (a : ArrayObject) (m : Memory) (key : List UInt8)
    (hsorted : ∀ i j, i < j → j < a.cnt → c.compare (a.elem m i) (a.elem m j) ≤ 0) :
    ∃ fuel r, binarySearch c a m fuel key = some r ∧
      (∀ p ∈ r, ∃ k < a.cnt, p = a.addr k ∧ c.compare key (a.elem m k) = 0) ∧
      (r = none → ∀ k < a.cnt, c.compare key (a.elem m k) ≠ 0) := by
  obtain ⟨r, hrun, hfound⟩ := searchLoop_found key 0 a.cnt hsorted
    (fun k hk => absurd hk k.not_lt_zero) (Nat.le_refl _)
    (fun k hk hlt => absurd hlt (Nat.not_lt.mpr hk)) (Nat.lt_succ_self _)
  refine ⟨a.cnt - 0 + 1, r, ?_, hfound.equal, hfound.missing⟩
  rw [ArrayObject.addr, ArrayObject.addr, Nat.zero_mul, Nat.mul_comm a.cnt] at hrun
  exact hrun

/-- Elements are compared by their first byte. -/
def byteComparison : Comparison where
  compare x y := (x.headD 0).toNat - (y.headD 0).toNat
  swap x y := by omega
  trans x y z := by omega

def threeBytes : ArrayObject := ⟨64, 3, 1, by decide, by decide⟩

theorem binarySearch_correct_three :
    ∃ fuel r, binarySearch byteComparison threeBytes UInt8.ofNat fuel [65] = some r ∧ r ≠ none := by
  have hsorted : ∀ j < 3, ∀ i < j, byteComparison.compare (threeBytes.elem UInt8.ofNat i)
      (threeBytes.elem UInt8.ofNat j) ≤ 0 := by decide
  obtain ⟨fuel, r, hrun, -, hmissing⟩ := binarySearch_correct byteComparison threeBytes UInt8.ofNat
    [65] fun i j hij hj => hsorted j hj i hij
  exact ⟨fuel, r, hrun, fun h => hmissing h 1 (by decide) (by decide)⟩

end Pintos.Lib
