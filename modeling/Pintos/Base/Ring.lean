/-
  Pintos.Base.Ring

  Ring buffers: `N` cells and two positions below `N`.  Elements are put at
  `head` and taken from `tail`; equal positions mean an empty buffer, so that at
  most `N - 1` cells are in use.
-/

import Mathlib

namespace Pintos.Base

open Function

variable {α : Type*} {N head tail : Nat} {buf : Nat → α}

/-- The number of cells from `tail` up to `head`. -/
def ringCount (N tail head : Nat) : Nat :=
  if tail ≤ head then head - tail else head + N - tail

/-- The elements of the ring, the oldest first. -/
def ringList (N : Nat) (buf : Nat → α) (tail head : Nat) : List α :=
  (List.range (ringCount N tail head)).map fun i => buf ((tail + i) % N)

/-- The next position either is one more or wraps around. -/
theorem ring_next (h : head < N) :
    (head + 1) % N = head + 1 ∧ head + 1 < N ∨ (head + 1) % N = 0 ∧ head + 1 = N := by
  rcases Nat.lt_or_ge (head + 1) N with hlt | hge
  · exact Or.inl ⟨Nat.mod_eq_of_lt hlt, hlt⟩
  · have heq : head + 1 = N := by omega
    exact Or.inr ⟨by rw [heq, Nat.mod_self], heq⟩

section

variable (hh : head < N) (ht : tail < N)

include hh ht

theorem ringCount_put (hfull : (head + 1) % N ≠ tail) :
    ringCount N tail ((head + 1) % N) = ringCount N tail head + 1 := by
  unfold ringCount
  rcases ring_next hh with ⟨hn, hN⟩ | ⟨hn, hN⟩ <;> rw [hn] at hfull ⊢ <;> split <;> split <;> omega

theorem ringCount_take (hne : head ≠ tail) :
    ringCount N tail head = ringCount N ((tail + 1) % N) head + 1 := by
  unfold ringCount
  rcases ring_next ht with ⟨hn, hN⟩ | ⟨hn, hN⟩ <;> rw [hn] <;> split <;> split <;> omega

theorem ringCount_lt : ringCount N tail head < N := by
  unfold ringCount
  split <;> omega

/-- The cell at `head` is the first one behind the elements. -/
theorem ring_last : (tail + ringCount N tail head) % N = head := by
  unfold ringCount
  split
  · rename_i hle
    rw [Nat.add_sub_cancel' hle, Nat.mod_eq_of_lt hh]
  · have hadd : tail + (head + N - tail) = head + N := by omega
    rw [hadd, Nat.add_mod_right, Nat.mod_eq_of_lt hh]

/-- Cells closer to `tail` than `head` are other cells. -/
theorem ring_ne_head {i : Nat} (hi : i < ringCount N tail head) : (tail + i) % N ≠ head := by
  have hcount := ringCount_lt hh ht
  rcases Nat.lt_or_ge (tail + i) N with hlt | hge
  · rw [Nat.mod_eq_of_lt hlt]
    unfold ringCount at hi
    split at hi <;> omega
  · rw [Nat.mod_eq_sub_mod hge, Nat.mod_eq_of_lt (by omega)]
    unfold ringCount at hi
    split at hi <;> omega

end

/-- A put into a buffer that is not full appends. -/
theorem ringList_put (buf : Nat → α) (hh : head < N) (ht : tail < N)
    (hfull : (head + 1) % N ≠ tail) (b : α) :
    ringList N (update buf head b) tail ((head + 1) % N) =
      ringList N buf tail head ++ [b] := by
  rw [ringList, ringCount_put hh ht hfull, List.range_succ, List.map_append, ringList]
  congr 1
  · apply List.map_congr_left
    intro i hi
    rw [update_of_ne (ring_ne_head hh ht (List.mem_range.mp hi))]
  · rw [List.map_singleton, ring_last hh ht, update_self]

/-- A take from a buffer that is not empty gives the oldest element. -/
theorem ringList_take (hh : head < N) (ht : tail < N) (hne : head ≠ tail) :
    ringList N buf tail head = buf tail :: ringList N buf ((tail + 1) % N) head := by
  rw [ringList, ringCount_take hh ht hne, List.range_succ_eq_map, List.map_cons, List.map_map,
    ringList, Nat.add_zero, Nat.mod_eq_of_lt ht]
  congr 1
  apply List.map_congr_left
  intro i _
  simp only [comp_apply, Nat.succ_eq_add_one]
  rw [Nat.mod_add_mod, Nat.add_right_comm, ← Nat.add_assoc]

theorem ringList_self : ringList N buf tail tail = [] := by
  simp [ringList, ringCount]

end Pintos.Base
