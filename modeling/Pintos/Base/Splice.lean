/-
  Pintos.Base.Splice

  Byte arrays that grow: `slice` reads a window, cut off at the end of the
  array; `overwrite` replaces a window, filling any gap between the old end and
  the window with a given element.

  Both are characterized pointwise by `getElem?`.
-/

import Mathlib

namespace Pintos.Base

variable {α : Type}

/-- Elements `[off, off + n)`, as far as the array reaches. -/
def slice (l : List α) (off n : Nat) : List α := (l.drop off).take n

/-- `l` with `[off, off + d.length)` replaced by `d` and any gap before `off`
    filled with `z`. -/
def overwrite (z : α) (l : List α) (off : Nat) (d : List α) : List α :=
  (l ++ List.replicate (off - l.length) z).take off ++ d ++ l.drop (off + d.length)

theorem slice_getElem? (l : List α) (off n i : Nat) :
    (slice l off n)[i]? = if i < n then l[off + i]? else none := by
  simp only [slice, List.getElem?_take, List.getElem?_drop]

theorem overwrite_length (z : α) (l : List α) (off : Nat) (d : List α) :
    (overwrite z l off d).length = max l.length (off + d.length) := by
  simp [overwrite]
  omega

/-- Element `i` after an overwrite: the new data inside the window, the old
    contents outside, and the filler in the gap. -/
theorem overwrite_getElem? (z : α) (l : List α) (off : Nat) (d : List α) (i : Nat) :
    (overwrite z l off d)[i]? =
      if i < off then if i < l.length then l[i]? else some z
      else if i < off + d.length then d[i - off]? else l[i]? := by
  have hfront : ((l ++ List.replicate (off - l.length) z).take off).length = off := by
    simp; omega
  simp only [overwrite, List.append_assoc]
  rw [List.getElem?_append, hfront]
  split
  · rename_i hi
    rw [List.getElem?_take, if_pos hi, List.getElem?_append]
    split
    · rfl
    · rename_i hc
      rw [List.getElem?_replicate, if_pos (by omega)]
  · rename_i hi
    rw [List.getElem?_append]
    by_cases hd : i < off + d.length
    · rw [if_pos (by omega), if_pos hd]
    · rw [if_neg (by omega), if_neg hd, List.getElem?_drop]
      congr 1
      omega

end Pintos.Base
