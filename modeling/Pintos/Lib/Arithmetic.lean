/-
  Pintos.Lib.Arithmetic

  64-bit division on a 32-bit machine (lib/arithmetic.c): what the compiler calls
  for `/` and `%` of `long long` operands.

  A trap of the `divl` instruction is `none`.

  Results:
  - quotients are exact and no `divl` traps
  - a remainder is exact just when it fits the 32-bit type that `umod64` and
    `smod64` return
-/

import Mathlib

namespace Pintos.Lib

/-- `divl`: traps unless the quotient fits in 32 bits. -/
def divl (n : UInt64) (d : UInt32) : Option UInt32 :=
  if d = 0 ∨ 2 ^ 32 ≤ n.toNat / d.toNat then none else some (UInt32.ofNat (n.toNat / d.toNat))

/-- One test of `nlz`: a small `x` is shifted by `k`. -/
def nlzStep (limit : UInt32) (k : Nat) (p : Nat × UInt32) : Nat × UInt32 :=
  if p.2 ≤ limit then (p.1 + k, p.2 <<< UInt32.ofNat k) else p

/-- `nlz`; its last test does not shift, and nothing reads `x` after it. -/
def nlz (x : UInt32) : Nat :=
  (nlzStep 0x7FFFFFFF 1 <| nlzStep 0x3FFFFFFF 2 <| nlzStep 0x0FFFFFFF 4 <|
    nlzStep 0x00FFFFFF 8 <| nlzStep 0x0000FFFF 16 (0, x)).1

/-- `udiv64` -/
def udiv64 (n d : UInt64) : Option UInt64 :=
  if d >>> 32 = 0 then do
    let b := (1 : UInt64) <<< 32
    let n1 := (n >>> 32).toUInt32
    let n0 := n.toUInt32
    let d0 := d.toUInt32
    let q ← divl (b * (n1 % d0).toUInt64 + n0.toUInt64) d0
    return q.toUInt64 + b * (n1 / d0).toUInt64
  else if n < d then return 0
  else do
    let d1 := (d >>> 32).toUInt32
    let s := nlz d1
    let q1 ← divl (n >>> 1) ((d <<< UInt64.ofNat s) >>> 32).toUInt32
    let q := (q1 >>> UInt32.ofNat (31 - s)).toUInt64
    return if n - (q - 1) * d < d then q - 1 else q

/-- `umod64`, which returns `uint32_t`. -/
def umod64 (n d : UInt64) : Option UInt32 := do
  return (n - d * (← udiv64 n d)).toUInt32

/-- The absolute value that `sdiv64` computes of an operand. -/
def abs64 (n : Int64) : UInt64 := if 0 ≤ n then n.toUInt64 else -n.toUInt64

/-- `sdiv64` -/
def sdiv64 (n d : Int64) : Option Int64 := do
  let q ← udiv64 (abs64 n) (abs64 d)
  return if decide (n < 0) = decide (d < 0) then q.toInt64 else -q.toInt64

/-- `smod64`, which returns `int32_t`. -/
def smod64 (n d : Int64) : Option Int32 := do
  return (n - d * (← sdiv64 n d)).toInt32

/-- `__divdi3` -/
def divdi3 (n d : Int64) : Option Int64 := sdiv64 n d

/-- `__moddi3` -/
def moddi3 (n d : Int64) : Option Int64 := (smod64 n d).map Int32.toInt64

/-- `__udivdi3` -/
def udivdi3 (n d : UInt64) : Option UInt64 := udiv64 n d

/-- `__umoddi3` -/
def umoddi3 (n d : UInt64) : Option UInt64 := (umod64 n d).map UInt32.toUInt64

/-! ## Leading zeros -/

/-- A test of `nlz` keeps `x` the argument shifted by the count, and leaves it
    above the limit. -/
theorem nlzStep_spec {x : UInt32} {p : Nat × UInt32} (limit : UInt32) (k : Nat) (hk : k < 32)
    (hlimit : (limit.toNat + 1) * 2 ^ k = 2 ^ 32) (hp : p.2.toNat = x.toNat * 2 ^ p.1)
    (hlow : (limit.toNat + 1) ≤ p.2.toNat * 2 ^ k) :
    (nlzStep limit k p).2.toNat = x.toNat * 2 ^ (nlzStep limit k p).1 ∧
      limit.toNat < (nlzStep limit k p).2.toNat := by
  rw [nlzStep]
  split
  case isTrue hle =>
    rw [UInt32.le_iff_toNat_le] at hle
    have hfit : p.2.toNat * 2 ^ k < 2 ^ 32 := by
      rw [← hlimit]
      exact Nat.mul_lt_mul_of_pos_right (by omega) (Nat.two_pow_pos k)
    have hshift : (p.2 <<< UInt32.ofNat k).toNat = p.2.toNat * 2 ^ k := by
      rw [UInt32.toNat_shiftLeft, UInt32.toNat_ofNat', Nat.mod_eq_of_lt (a := k) (by omega),
        Nat.mod_eq_of_lt (a := k) hk, Nat.shiftLeft_eq, Nat.mod_eq_of_lt hfit]
    refine ⟨?_, ?_⟩
    · rw [hshift, hp, Nat.mul_assoc, ← Nat.pow_add]
    · rw [hshift]
      omega
  case isFalse hgt =>
    rw [UInt32.le_iff_toNat_le] at hgt
    exact ⟨hp, by omega⟩

/-- Shifting a word by its leading zeros makes its highest bit the top one. -/
theorem nlz_spec {x : UInt32} (hx : x ≠ 0) :
    2 ^ 31 ≤ x.toNat * 2 ^ nlz x ∧ x.toNat * 2 ^ nlz x < 2 ^ 32 := by
  have h0 : 1 ≤ x.toNat := Nat.one_le_iff_ne_zero.mpr fun h => hx (UInt32.toNat_inj.mp h)
  obtain ⟨e16, l16⟩ := nlzStep_spec (p := (0, x)) 0x0000FFFF 16 (by decide) rfl
    (show x.toNat = x.toNat * 2 ^ 0 by simp) (show 0x10000 ≤ x.toNat * 2 ^ 16 by omega)
  obtain ⟨e8, l8⟩ := nlzStep_spec 0x00FFFFFF 8 (by decide) rfl e16
    (by simp only [UInt32.reduceToNat] at l16 ⊢; omega)
  obtain ⟨e4, l4⟩ := nlzStep_spec 0x0FFFFFFF 4 (by decide) rfl e8
    (by simp only [UInt32.reduceToNat] at l8 ⊢; omega)
  obtain ⟨e2, l2⟩ := nlzStep_spec 0x3FFFFFFF 2 (by decide) rfl e4
    (by simp only [UInt32.reduceToNat] at l4 ⊢; omega)
  obtain ⟨e1, l1⟩ := nlzStep_spec 0x7FFFFFFF 1 (by decide) rfl e2
    (by simp only [UInt32.reduceToNat] at l2 ⊢; omega)
  rw [nlz, ← e1]
  exact ⟨l1, UInt32.toNat_lt _⟩

/-! ## The quotient -/

theorem divl_eq {n : UInt64} {d : UInt32} (hd : d ≠ 0) (h : n.toNat / d.toNat < 2 ^ 32) :
    divl n d = some (UInt32.ofNat (n.toNat / d.toNat)) := by
  rw [divl, if_neg]
  rintro (h0 | hge)
  · exact hd h0
  · omega

/-- The estimate of a quotient from a divisor with its low bits cleared is at most
    one too large. -/
theorem quotient_estimate {n d v e : Nat} (hn : n < 2 ^ 64) (hv : 2 ^ 31 ≤ v) (he : e = 2 ∨ 4 ≤ e)
    (hle : v * e ≤ d) (hlt : d < (v + 1) * e) : n / d ≤ n / (v * e) ∧ n / (v * e) ≤ n / d + 1 := by
  have hpos : 0 < v * e := Nat.mul_pos (by omega) (by omega)
  refine ⟨Nat.div_le_div_left hle hpos, ?_⟩
  obtain ⟨f, rfl⟩ : ∃ f, e = f + 1 := ⟨e - 1, by omega⟩
  by_contra hcon
  -- with `k = n / d`, both `(k + 2) * (v * e) ≤ n` and `n < (k + 1) * d`
  have hlow : (n / d + 2) * (v * (f + 1)) ≤ n :=
    (Nat.mul_le_mul_right _ (by omega)).trans (Nat.div_mul_le_self n _)
  have hhigh : n < (n / d + 1) * d := by
    rw [Nat.add_mul, Nat.one_mul]
    exact Nat.lt_div_mul_add (by omega)
  generalize n / d = k at hlow hhigh
  have hup : (k + 1) * d ≤ (k + 1) * (v * (f + 1)) + (k + 1) * f := by
    rw [← Nat.mul_add]
    apply Nat.mul_le_mul_left
    rw [Nat.add_mul, Nat.one_mul] at hlt
    omega
  have hgap : v * (f + 1) < (k + 1) * f := by
    rw [show k + 2 = k + 1 + 1 from rfl, Nat.add_mul (k + 1), Nat.one_mul] at hlow
    omega
  have hsmall : (k + 2) * (f + 1) < 2 ^ 33 := by
    have h31 : (k + 2) * (f + 1) * 2 ^ 31 ≤ (k + 2) * (v * (f + 1)) := by
      rw [Nat.mul_comm v, ← Nat.mul_assoc]
      exact Nat.mul_le_mul_left _ hv
    omega
  have hkf : (k + 1) * f ≤ (k + 2) * (f + 1) := Nat.mul_le_mul (by omega) (by omega)
  rcases he with he | he
  · obtain rfl : f = 1 := by omega
    omega
  · have hbig : 2 ^ 31 * 4 ≤ v * (f + 1) := Nat.mul_le_mul hv he
    omega

theorem toNat_shiftRight_32 (n : UInt64) : (n >>> 32).toNat = n.toNat / 2 ^ 32 := by
  rw [UInt64.toNat_shiftRight, Nat.shiftRight_eq_div_pow]
  rfl

/-- The upper half of a number. -/
theorem toNat_high (n : UInt64) : (n >>> 32).toUInt32.toNat = n.toNat / 2 ^ 32 := by
  rw [UInt64.toNat_toUInt32, toNat_shiftRight_32]
  have := n.toNat_lt
  omega

/-- The divisor is below `2 ^ 32`: two 32-bit steps of long division. -/
theorem udiv64_short {n d : UInt64} (hd : d ≠ 0) (hshort : d >>> 32 = 0) :
    udiv64 n d = some (n / d) := by
  have hn := n.toNat_lt
  have hpos : 0 < d.toNat := Nat.pos_of_ne_zero fun h => hd (UInt64.toNat_inj.mp h)
  have hd32 : d.toNat < 2 ^ 32 := by
    have := congrArg UInt64.toNat hshort
    rw [toNat_shiftRight_32, show (0 : UInt64).toNat = 0 from rfl] at this
    omega
  have hd0 : d.toUInt32.toNat = d.toNat := by
    rw [UInt64.toNat_toUInt32, Nat.mod_eq_of_lt hd32]
  have hmod : n.toNat / 2 ^ 32 % d.toNat < d.toNat := Nat.mod_lt _ hpos
  have hmul : 2 ^ 32 * (n.toNat / 2 ^ 32 % d.toNat) + n.toNat % 2 ^ 32 < 2 ^ 32 * d.toNat := by
    omega
  have harg : ((1 : UInt64) <<< 32 * ((n >>> 32).toUInt32 % d.toUInt32).toUInt64 +
      n.toUInt32.toUInt64).toNat =
        2 ^ 32 * (n.toNat / 2 ^ 32 % d.toNat) + n.toNat % 2 ^ 32 := by
    rw [UInt64.toNat_add, UInt64.toNat_mul, UInt32.toNat_toUInt64, UInt32.toNat_toUInt64,
      UInt32.toNat_mod, toNat_high, hd0, UInt64.toNat_toUInt32,
      show ((1 : UInt64) <<< 32).toNat = 2 ^ 32 from rfl]
    omega
  have hq : (2 ^ 32 * (n.toNat / 2 ^ 32 % d.toNat) + n.toNat % 2 ^ 32) / d.toNat < 2 ^ 32 :=
    (Nat.div_lt_iff_lt_mul hpos).mpr hmul
  have hsum : (2 ^ 32 * (n.toNat / 2 ^ 32 % d.toNat) + n.toNat % 2 ^ 32) / d.toNat +
      2 ^ 32 * (n.toNat / 2 ^ 32 / d.toNat) = n.toNat / d.toNat := by
    rw [← Nat.add_mul_div_left _ _ hpos, Nat.mul_left_comm, Nat.add_right_comm, ← Nat.mul_add,
      Nat.mod_add_div, Nat.div_add_mod]
  have hhi : n.toNat / 2 ^ 32 / d.toNat ≤ n.toNat / 2 ^ 32 := Nat.div_le_self ..
  have hle : n.toNat / d.toNat ≤ n.toNat := Nat.div_le_self ..
  have hne : d.toUInt32 ≠ 0 := by
    intro h
    rw [h] at hd0
    exact hpos.ne hd0
  rw [udiv64, if_pos hshort]
  dsimp only
  rw [divl_eq hne (by rwa [harg, hd0])]
  simp only [Option.bind_eq_bind, Option.bind_some, Option.pure_def, Option.some.injEq]
  apply UInt64.toNat_inj.mp
  rw [UInt64.toNat_add, UInt64.toNat_mul, UInt32.toNat_toUInt64, UInt32.toNat_toUInt64,
    UInt32.toNat_ofNat', UInt32.toNat_div, toNat_high, harg, hd0, Nat.mod_eq_of_lt hq,
    UInt64.toNat_div, show ((1 : UInt64) <<< 32).toNat = 2 ^ 32 from rfl,
    Nat.mod_eq_of_lt (a := 2 ^ 32 * _) (by omega), hsum, Nat.mod_eq_of_lt (by omega)]

/-- A divisor shifted by `s` so that its top bit is set, with `p = 2 ^ s` and
    `e = 2 ^ (31 - s)`: its upper half times `2 * e` is the divisor with its low bits
    cleared. -/
theorem normalised {d p e : Nat} (hpe : p * e = 2 ^ 31) (hlow : 2 ^ 31 ≤ d / 2 ^ 32 * p)
    (hhigh : d / 2 ^ 32 * p < 2 ^ 32) :
    d * p < 2 ^ 64 ∧ 2 ^ 31 ≤ d * p / 2 ^ 32 ∧ d * p / 2 ^ 32 * (2 * e) ≤ d ∧
      d < (d * p / 2 ^ 32 + 1) * (2 * e) := by
  have hp : 0 < p := Nat.pos_of_ne_zero fun h => by simp [h] at hpe
  have hpe' : p * (2 * e) = 2 ^ 32 := by
    rw [Nat.mul_left_comm, hpe]
    rfl
  have hd1 : d / 2 ^ 32 < 2 * e := by
    apply Nat.lt_of_mul_lt_mul_right (a := p)
    rwa [Nat.mul_comm (2 * e), hpe']
  have hd : d < 2 ^ 32 * (2 * e) := by omega
  refine ⟨?_, ?_, ?_, ?_⟩
  · calc d * p < 2 ^ 32 * (2 * e) * p := Nat.mul_lt_mul_of_pos_right hd hp
      _ = 2 ^ 64 := by rw [Nat.mul_assoc, Nat.mul_comm (2 * e), hpe']; rfl
  · refine hlow.trans ((Nat.le_div_iff_mul_le (by decide)).mpr ?_)
    rw [Nat.mul_right_comm]
    exact Nat.mul_le_mul_right p (Nat.div_mul_le_self d _)
  · apply Nat.le_of_mul_le_mul_right _ hp
    rw [Nat.mul_assoc, Nat.mul_comm (2 * e), hpe']
    exact Nat.div_mul_le_self _ _
  · apply Nat.lt_of_mul_lt_mul_right (a := p)
    rw [Nat.mul_assoc, Nat.mul_comm (2 * e), hpe', Nat.add_mul, Nat.one_mul]
    exact Nat.lt_div_mul_add (by decide)

/-- The correction of an estimate that is at most one too large. -/
theorem corrected {n d q : UInt64} (hpos : 0 < d.toNat) (hle : d.toNat ≤ n.toNat)
    (hlow : n.toNat / d.toNat ≤ q.toNat) (hhigh : q.toNat ≤ n.toNat / d.toNat + 1) :
    (if n - (q - 1) * d < d then q - 1 else q) = n / d := by
  have hn := n.toNat_lt
  have hk : 0 < n.toNat / d.toNat := Nat.div_pos hle hpos
  have hr : n.toNat % d.toNat < d.toNat := Nat.mod_lt _ hpos
  have hdiv : d.toNat * (n.toNat / d.toNat) + n.toNat % d.toNat = n.toNat := Nat.div_add_mod ..
  have hq1 : (q - 1).toNat = q.toNat - 1 := by
    have h1 : (1 : UInt64) ≤ q := UInt64.le_iff_toNat_le.mpr (show 1 ≤ q.toNat by omega)
    rw [UInt64.toNat_sub_of_le _ _ h1]
    rfl
  have hprod : (q.toNat - 1) * d.toNat ≤ n.toNat :=
    (Nat.mul_le_mul_right _ (by omega)).trans (Nat.div_mul_le_self ..)
  have hmul : ((q - 1) * d).toNat = (q.toNat - 1) * d.toNat := by
    rw [UInt64.toNat_mul, hq1, Nat.mod_eq_of_lt (by omega)]
  have hsub : (n - (q - 1) * d).toNat = n.toNat - (q.toNat - 1) * d.toNat := by
    rw [UInt64.toNat_sub_of_le _ _ (UInt64.le_iff_toNat_le.mpr (by omega)), hmul]
  have hcases : q.toNat = n.toNat / d.toNat ∨ q.toNat - 1 = n.toNat / d.toNat := by omega
  apply UInt64.toNat_inj.mp
  rw [UInt64.toNat_div]
  rcases hcases with h | h
  · -- the estimate is exact, and one less leaves at least `d`
    have hpred : d.toNat * (n.toNat / d.toNat) = (q.toNat - 1) * d.toNat + d.toNat := by
      rw [← h, Nat.mul_comm, ← Nat.add_one_mul]
      congr 1
      omega
    rw [if_neg (by rw [UInt64.lt_iff_toNat_lt]; omega), h]
  · have hrest : d.toNat * (n.toNat / d.toNat) = (q.toNat - 1) * d.toNat := by
      rw [← h, Nat.mul_comm]
    rw [if_pos (by rw [UInt64.lt_iff_toNat_lt]; omega), hq1, h]

/-- The divisor has more than 32 bits: the quotient is estimated from its upper
    32 bits after normalisation, and corrected. -/
theorem udiv64_long {n d : UInt64} (hlong : d >>> 32 ≠ 0) : udiv64 n d = some (n / d) := by
  have hn := n.toNat_lt
  have hpos : 0 < d.toNat := by
    apply Nat.pos_of_ne_zero
    intro h
    apply hlong
    apply UInt64.toNat_inj.mp
    rw [toNat_shiftRight_32, h]
    rfl
  have h1 : (d >>> 32).toUInt32 ≠ 0 := by
    intro h
    apply hlong
    apply UInt64.toNat_inj.mp
    have := congrArg UInt32.toNat h
    rwa [toNat_high, ← toNat_shiftRight_32] at this
  obtain ⟨hlow, hhigh⟩ := nlz_spec h1
  rw [toNat_high] at hlow hhigh
  rw [udiv64, if_neg hlong]
  split
  case isTrue hlt =>
    rw [UInt64.lt_iff_toNat_lt] at hlt
    refine congrArg some (UInt64.toNat_inj.mp ?_)
    rw [UInt64.toNat_div, Nat.div_eq_of_lt hlt]
    rfl
  case isFalse hge =>
    rw [UInt64.lt_iff_toNat_lt] at hge
    dsimp only
    generalize nlz (d >>> 32).toUInt32 = s at hlow hhigh
    have hs : s < 32 := by
      by_contra hcon
      have hpow : 2 ^ 32 ≤ 2 ^ s := Nat.pow_le_pow_right (by decide) (by omega)
      have hpos : 0 < d.toNat / 2 ^ 32 := by
        apply Nat.pos_of_ne_zero
        intro h
        rw [h, Nat.zero_mul] at hlow
        omega
      have := Nat.le_mul_of_pos_left (2 ^ s) hpos
      omega
    have hpe : 2 ^ s * 2 ^ (31 - s) = 2 ^ 31 := by
      rw [← Nat.pow_add]
      congr 1
      omega
    obtain ⟨hfit, hv, hle, hlt⟩ := normalised hpe hlow hhigh
    have hshift : (d <<< UInt64.ofNat s).toNat = d.toNat * 2 ^ s := by
      rw [UInt64.toNat_shiftLeft, UInt64.toNat_ofNat', Nat.mod_eq_of_lt (a := s) (by omega),
        Nat.mod_eq_of_lt (a := s) (by omega), Nat.shiftLeft_eq, Nat.mod_eq_of_lt hfit]
    have hv1 : ((d <<< UInt64.ofNat s) >>> 32).toUInt32.toNat = d.toNat * 2 ^ s / 2 ^ 32 := by
      rw [toNat_high, hshift]
    have he : 2 * 2 ^ (31 - s) = 2 ∨ 4 ≤ 2 * 2 ^ (31 - s) := by
      have := Nat.one_le_two_pow (n := 31 - s)
      omega
    obtain ⟨hq, hq'⟩ := quotient_estimate hn hv he hle hlt
    generalize d.toNat * 2 ^ s / 2 ^ 32 = v at hv hle hlt hv1 hq hq'
    have hhalf : (n >>> 1).toNat = n.toNat / 2 := by
      rw [UInt64.toNat_shiftRight, Nat.shiftRight_eq_div_pow]
      rfl
    have hsmall : n.toNat / 2 / v < 2 ^ 32 := by
      apply (Nat.div_lt_iff_lt_mul (by omega)).mpr
      omega
    have hest : (UInt32.ofNat (n.toNat / 2 / v) >>> UInt32.ofNat (31 - s)).toUInt64.toNat =
        n.toNat / (v * (2 * 2 ^ (31 - s))) := by
      rw [UInt32.toNat_toUInt64, UInt32.toNat_shiftRight, UInt32.toNat_ofNat', UInt32.toNat_ofNat',
        Nat.mod_eq_of_lt hsmall, Nat.mod_eq_of_lt (a := 31 - s) (by omega),
        Nat.mod_eq_of_lt (a := 31 - s) (by omega), Nat.shiftRight_eq_div_pow, Nat.div_div_eq_div_mul,
        Nat.div_div_eq_div_mul, Nat.mul_left_comm]
    have hne : ((d <<< UInt64.ofNat s) >>> 32).toUInt32 ≠ 0 := by
      intro h
      rw [h, show (0 : UInt32).toNat = 0 from rfl] at hv1
      omega
    rw [divl_eq hne (by rwa [hhalf, hv1])]
    simp only [Option.bind_eq_bind, Option.bind_some, Option.pure_def, Option.some.injEq, hhalf, hv1]
    generalize (UInt32.ofNat (n.toNat / 2 / v) >>> UInt32.ofNat (31 - s)).toUInt64 = q at hest
    rw [← hest] at hq hq'
    exact corrected hpos (by omega) hq hq'

theorem udiv64_eq {n d : UInt64} (hd : d ≠ 0) : udiv64 n d = some (n / d) := by
  by_cases hshort : d >>> 32 = 0
  · exact udiv64_short hd hshort
  · exact udiv64_long hshort

/-! ## Signed operands -/

theorem toInt_cond (n : Int64) : n.toInt =
    if 2 * n.toUInt64.toNat < 2 ^ 64 then (n.toUInt64.toNat : Int)
    else n.toUInt64.toNat - (2 ^ 64 : Nat) :=
  BitVec.toInt_eq_toNat_cond n.toBitVec

theorem toInt_toInt64 (q : UInt64) : q.toInt64.toInt = (q.toNat : Int).bmod (2 ^ 64) :=
  BitVec.toInt_eq_toNat_bmod q.toBitVec

theorem toNat_abs64 (n : Int64) : (abs64 n).toNat = n.toInt.natAbs := by
  have hcond := toInt_cond n
  have hlt := n.toUInt64.toNat_lt
  rw [abs64]
  split
  case isTrue h =>
    rw [Int64.le_iff_toInt_le, Int64.toInt_zero] at h
    split at hcond <;> omega
  case isFalse h =>
    rw [Int64.le_iff_toInt_le, Int64.toInt_zero] at h
    rw [UInt64.toNat_neg, show UInt64.size = 2 ^ 64 from rfl]
    split at hcond <;> omega

/-- The quotient is that of the absolute values, with the sign put back. -/
theorem sdiv64_eq {n d : Int64} (hd : d ≠ 0) : sdiv64 n d = some (n / d) := by
  have hd0 : d.toInt ≠ 0 := fun h => hd (Int64.toInt_inj.mp h)
  have habs : abs64 d ≠ 0 := by
    intro h
    have := toNat_abs64 d
    rw [h, show (0 : UInt64).toNat = 0 from rfl] at this
    omega
  have hq : (abs64 n / abs64 d).toNat = (n.toInt.tdiv d.toInt).natAbs := by
    rw [UInt64.toNat_div, toNat_abs64, toNat_abs64, Int.natAbs_tdiv]
    rfl
  rw [sdiv64, udiv64_eq habs]
  simp only [Option.bind_eq_bind, Option.bind_some, Option.pure_def, Option.some.injEq,
    Int64.lt_iff_toInt_lt, Int64.toInt_zero]
  apply Int64.toInt_inj.mp
  rw [Int64.toInt_div]
  generalize n.toInt = a at hq ⊢
  generalize d.toInt = b at hq ⊢
  split
  case isTrue hsign =>
    have hnonneg : 0 ≤ a.tdiv b := by
      by_cases ha : a < 0
      · have hb : b < 0 := by simpa [ha] using hsign
        exact Int.tdiv_nonneg_of_nonpos_of_nonpos ha.le hb.le
      · have hb : ¬b < 0 := by simpa [ha] using hsign
        exact Int.tdiv_nonneg (by omega) (by omega)
    rw [toInt_toInt64, hq, Int.natAbs_of_nonneg hnonneg]
  case isFalse hsign =>
    have hnonpos : 0 ≤ -a.tdiv b := by
      by_cases ha : a < 0
      · have hb : ¬b < 0 := by simpa [ha] using hsign
        rw [← Int.neg_tdiv]
        exact Int.tdiv_nonneg (by omega) (by omega)
      · have hb : b < 0 := by simpa [ha] using hsign
        rw [← Int.tdiv_neg]
        exact Int.tdiv_nonneg (by omega) (by omega)
    rw [Int64.toInt_neg, toInt_toInt64, hq, Int.bmod_neg_bmod, ← Int.natAbs_neg,
      Int.natAbs_of_nonneg hnonpos, Int.neg_neg]

/-! ## Results -/

/-- Quotients are exact for all operands, and no `divl` on the way traps. -/
theorem quotients_exact :
    (∀ n d : UInt64, d ≠ 0 → ∃ q, udivdi3 n d = some q ∧ q.toNat = n.toNat / d.toNat) ∧
    (∀ n d : Int64, d ≠ 0 → ∃ q, divdi3 n d = some q ∧
      q.toInt = (n.toInt.tdiv d.toInt).bmod (2 ^ 64)) := by
  refine ⟨fun n d hd => ⟨n / d, udiv64_eq hd, UInt64.toNat_div n d⟩, fun n d hd => ?_⟩
  exact ⟨n / d, sdiv64_eq hd, Int64.toInt_div n d⟩

theorem quotients_exact_seven : (∃ q, udivdi3 (2 ^ 33) 7 = some q ∧ q.toNat = 2 ^ 33 / 7) ∧
    (∃ q, divdi3 (-7) 2 = some q ∧ q.toInt = -3) :=
  ⟨quotients_exact.1 (2 ^ 33) 7 (by decide), quotients_exact.2 (-7) 2 (by decide)⟩

theorem toNat_umod64 (n d : UInt64) : (n - d * (n / d)).toNat = n.toNat % d.toNat := by
  have hn := n.toNat_lt
  have hdiv : d.toNat * (n.toNat / d.toNat) + n.toNat % d.toNat = n.toNat := Nat.div_add_mod ..
  have hmul : (d * (n / d)).toNat = d.toNat * (n.toNat / d.toNat) := by
    rw [UInt64.toNat_mul, UInt64.toNat_div, Nat.mod_eq_of_lt (by omega)]
  rw [UInt64.toNat_sub_of_le _ _ (UInt64.le_iff_toNat_le.mpr (by omega)), hmul]
  omega

theorem bmod_tmod (n : Int64) {d : Int64} (hd : d ≠ 0) :
    (n.toInt.tmod d.toInt).bmod (2 ^ 64) = n.toInt.tmod d.toInt := by
  have hle := d.le_toInt
  have hlt := d.toInt_lt
  have hpos : 0 < d.toInt.natAbs := Int.natAbs_pos.mpr fun h => hd (Int64.toInt_inj.mp h)
  have hmod : (n.toInt.tmod d.toInt).natAbs < d.toInt.natAbs := by
    rw [Int.natAbs_tmod]
    exact Nat.mod_lt _ hpos
  apply Int.bmod_eq_of_le <;> omega

theorem toInt_smod64 (n : Int64) {d : Int64} (hd : d ≠ 0) :
    (n - d * (n / d)).toInt = n.toInt.tmod d.toInt := by
  rw [Int64.toInt_sub, Int64.toInt_mul, Int64.toInt_div, Int.mul_bmod_bmod, Int.sub_bmod_bmod,
    ← Int.tmod_def, bmod_tmod n hd]

/-- A remainder is exact just when it fits the return type of `umod64` or
    `smod64`. -/
theorem remainders_exact_iff {n d : UInt64} {m e : Int64} (hd : d ≠ 0) (he : e ≠ 0) :
    ((∃ r, umoddi3 n d = some r ∧ r.toNat = n.toNat - d.toNat * (n.toNat / d.toNat)) ↔
      n.toNat % d.toNat < 2 ^ 32) ∧
    ((∃ r, moddi3 m e = some r ∧
        r.toInt = (m.toInt - e.toInt * m.toInt.tdiv e.toInt).bmod (2 ^ 64)) ↔
      -2 ^ 31 ≤ m.toInt.tmod e.toInt ∧ m.toInt.tmod e.toInt < 2 ^ 31) := by
  constructor
  · have hdiv : d.toNat * (n.toNat / d.toNat) + n.toNat % d.toNat = n.toNat := Nat.div_add_mod ..
    have hr : umoddi3 n d = some (n - d * (n / d)).toUInt32.toUInt64 := by
      simp [umoddi3, umod64, udiv64_eq hd]
    simp only [hr, Option.some.injEq, exists_eq_left', UInt32.toNat_toUInt64,
      UInt64.toNat_toUInt32, toNat_umod64]
    omega
  · have hr : moddi3 m e = some (m - e * (m / e)).toInt32.toInt64 := by
      simp [moddi3, smod64, sdiv64_eq he]
    simp only [hr, Option.some.injEq, exists_eq_left', Int32.toInt_toInt64, Int64.toInt_toInt32,
      toInt_smod64 m he, ← Int.tmod_def, bmod_tmod m he]
    generalize m.toInt.tmod e.toInt = r
    rw [Int.bmod_eq_iff (by decide)]
    omega

theorem remainders_exact_iff_seven :
    (∃ r, umoddi3 (2 ^ 33) 7 = some r ∧ r.toNat = 2 ^ 33 - 7 * (2 ^ 33 / 7)) ∧
    (∃ r, moddi3 (-7) 2 = some r ∧ r.toInt = -1) := by
  obtain ⟨hu, hs⟩ := remainders_exact_iff (n := 2 ^ 33) (d := 7) (m := -7) (e := 2) (by decide)
    (by decide)
  exact ⟨hu.mpr (by decide), hs.mpr (by decide)⟩

/-- `2 ^ 32 % (2 ^ 32 + 1)` is cut to 0, and `2 ^ 31 % (2 ^ 31 + 1)` becomes
    negative. -/
theorem remainders_truncated :
    umoddi3 (2 ^ 32) (2 ^ 32 + 1) = some 0 ∧ moddi3 (2 ^ 31) (2 ^ 31 + 1) = some (-2 ^ 31) := by
  decide

end Pintos.Lib
