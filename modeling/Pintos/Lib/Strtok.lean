/-
  Pintos.Lib.Strtok

  `strtok_r` (lib/string.c) with a single delimiter: the tokens of a string.
  Strings are lists of the characters before the terminating null byte.
-/

import Mathlib

namespace Pintos.Lib

variable {α : Type} [DecidableEq α] {d : α} {s t : List α}

/-- `strtok_r`: the next token and what is left of the string behind the
    delimiter that ends it. -/
def strtokR (d : α) (s : List α) : Option (List α × List α) :=
  match s.dropWhile (· == d) with
  | [] => none
  | c :: s => some (c :: s.takeWhile (· != d), (s.dropWhile (· != d)).drop 1)

theorem strtokR_rest_lt {rest : List α} (h : strtokR d s = some (t, rest)) :
    rest.length < s.length := by
  rw [strtokR] at h
  split at h
  · cases h
  · rename_i c s' heq
    cases h
    have hsuf := (List.dropWhile_suffix (l := s) (· == d)).length_le
    have hrest := (List.dropWhile_suffix (l := s') (· != d)).length_le
    rw [heq, List.length_cons] at hsuf
    rw [List.length_drop]
    omega

/-- The tokens that a loop over `strtok_r` goes through. -/
def tokens (d : α) (s : List α) : List (List α) :=
  match _h : strtokR d s with
  | none => []
  | some (t, rest) => t :: tokens d rest
termination_by s.length
decreasing_by exact strtokR_rest_lt _h

/-- There is a token unless the string is blank. -/
theorem strtokR_eq_none : strtokR d s = none ↔ ∀ c ∈ s, c = d := by
  rw [strtokR]
  split
  · rename_i heq
    simpa using heq
  · rename_i c s' heq
    refine iff_of_false nofun fun hall => ?_
    have hnil : s.dropWhile (· == d) = [] := by simpa using hall
    rw [hnil] at heq
    cases heq

end Pintos.Lib
