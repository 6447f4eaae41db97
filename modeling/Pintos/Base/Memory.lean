/-
  Pintos.Base.Memory

  Byte-addressed memory and its little-endian 32-bit words.
-/

import Mathlib

namespace Pintos.Base

abbrev Memory := Nat → UInt8

/-- The little-endian word at `a`. -/
def word (m : Memory) (a : Nat) : Nat :=
  (m a).toNat + (m (a + 1)).toNat * 2 ^ 8 + (m (a + 2)).toNat * 2 ^ 16 +
    (m (a + 3)).toNat * 2 ^ 24

/-- The word at `a` is set to `v`. -/
def setWord (m : Memory) (a v : Nat) : Memory := fun x =>
  if a ≤ x ∧ x < a + 4 then UInt8.ofNat (v / 2 ^ (8 * (x - a))) else m x

variable {m m' : Memory} {a v x : Nat}

theorem setWord_of_not_mem (h : x < a ∨ a + 4 ≤ x) : setWord m a v x = m x :=
  if_neg (by omega)

/-- A word depends on its four bytes. -/
theorem word_congr (h : ∀ x, a ≤ x → x < a + 4 → m' x = m x) : word m' a = word m a := by
  rw [word, h a (by omega) (by omega), h (a + 1) (by omega) (by omega),
    h (a + 2) (by omega) (by omega), h (a + 3) (by omega) (by omega), word]

theorem word_setWord_self (h : v < 2 ^ 32) : word (setWord m a v) a = v := by
  have hbyte : ∀ k < 4, (setWord m a v (a + k)).toNat = v / 2 ^ (8 * k) % 2 ^ 8 := by
    intro k hk
    rw [setWord, if_pos (by omega), Nat.add_sub_cancel_left, UInt8.toNat_ofNat']
  have h0 := hbyte 0 (by omega)
  have h1 := hbyte 1 (by omega)
  have h2 := hbyte 2 (by omega)
  have h3 := hbyte 3 (by omega)
  rw [Nat.add_zero] at h0
  rw [word, h0, h1, h2, h3]
  omega

theorem word_setWord_of_disjoint {b : Nat} (h : b + 4 ≤ a ∨ a + 4 ≤ b) :
    word (setWord m a v) b = word m b :=
  word_congr fun _ _ _ => setWord_of_not_mem (by omega)

end Pintos.Base
