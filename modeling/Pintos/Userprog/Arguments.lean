/-
  Pintos.Userprog.Arguments

  The initial stack of a process: `load` up to `setup_stack`, `push_arguments`,
  `skip_spaces_reverse` and the end of `setup_stack` (userprog/process.c).

  The stack has one page.  A store outside of it is a page fault in the kernel,
  for which `page_fault` finds no supplemental page and calls `exit (-1)`; here
  it is `none`.

  Result:
  - the stack is built without a fault if and only if the arguments, with the
    pointers to them, fit into the page
-/

import Pintos.Lib.Strtok

namespace Pintos.Userprog

open Pintos.Lib

variable {l cmdLine : List UInt8}

/-- `PHYS_BASE`. -/
def physBase : Nat := 0xc0000000

/-- `PGSIZE`. -/
def pgSize : Nat := 4096

/-- `NAME_MAX`. -/
def nameMax : Nat := 14

/-- `resolve_path` fails for an empty path and for a component that is too long
    to be a name. -/
def mayResolve (path : List UInt8) : Bool :=
  path ≠ [] && (tokens 47 path).all fun c => c.length ≤ nameMax

/-- The name that `load` opens: `strtok_r (fn_copy, " ", &save_ptr)`. -/
def programName (cmdLine : List UInt8) : Option (List UInt8) := (strtokR 32 cmdLine).map Prod.fst

/-- What `load` meets: whether there is a page directory and a page for the copy of the
    command line, which names can be opened, whether the headers and segments of the
    program are accepted, and whether there is a stack page with its entries. -/
structure LoadEnv where
  pagedir : Bool
  page : Bool
  opens : List UInt8 → Bool
  verified : Bool
  stackPage : Bool

/-- `load` comes to `push_arguments`.  Where it does not, it returns false. -/
def reachesStack (env : LoadEnv) (cmdLine : List UInt8) : Bool :=
  env.pagedir && env.page &&
    (programName cmdLine).any (fun name => mayResolve name && env.opens name) &&
    env.verified && env.stackPage

/-- The bytes of the stack page. -/
def inStack (a : Nat) : Bool := physBase - pgSize ≤ a && a < physBase

abbrev Memory := Nat → UInt8

/-- Stores a byte. -/
def store8 (m : Memory) (a : Nat) (b : UInt8) : Option Memory :=
  if inStack a then some (Function.update m a b) else none

/-- Stores a little-endian word. -/
def store32 (m : Memory) (a v : Nat) : Option Memory :=
  if inStack a && inStack (a + 3) then
    some fun x => if a ≤ x ∧ x < a + 4 then UInt8.ofNat (v / 256 ^ (x - a)) else m x
  else none

/-- The variables of `push_arguments`. -/
structure Push where
  esp : Nat
  argv : Nat
  argc : Nat
  mem : Memory

/-- The loop of `push_arguments`, over the characters from `ptr` back to the
    start of the command line; `skip_spaces_reverse` passes over a run of
    spaces. -/
def pushLoop : List UInt8 → Push → Option Push
  | [], s => some s
  | ch :: rest, s =>
    if ch = 32 then
      (store32 s.mem (s.argv - 4) s.esp).bind fun m =>
        (store8 m (s.esp - 1) 0).bind fun m =>
          pushLoop (rest.dropWhile (· == 32)) ⟨s.esp - 1, s.argv - 4, s.argc + 1, m⟩
    else
      (store8 s.mem (s.esp - 1) ch).bind fun m =>
        pushLoop rest { s with esp := s.esp - 1, mem := m }
termination_by l => l.length
decreasing_by
  · have hle := (List.dropWhile_suffix (l := rest) (· == 32)).length_le
    simp only [List.length_cons]
    omega
  · simp

/-- `push_arguments`; clearing the two low bits rounds down to a multiple of 4. -/
def pushArguments (m : Memory) (cmdLine : List UInt8) : Option Push :=
  let argv := (physBase - cmdLine.length - 1) / 4 * 4 - 4
  (store32 m argv 0).bind fun m =>
    (pushLoop (0 :: cmdLine.reverse) ⟨physBase, argv, 1, m⟩).bind fun s =>
      (store32 s.mem (s.argv - 4) s.esp).map fun m =>
        { s with esp := s.argv - 4, argv := s.argv - 4, mem := m }

/-- The end of `setup_stack`: the memory and the stack pointer. -/
def setupArguments (m : Memory) (cmdLine : List UInt8) : Option (Memory × Nat) :=
  (pushArguments m cmdLine).bind fun s =>
    (store32 s.mem (s.esp - 4) s.argv).bind fun m =>
      (store32 m (s.esp - 8) s.argc).bind fun m =>
        (store32 m (s.esp - 12) 0).map fun m => (m, s.esp - 12)

/-! ## Which stores fault -/

theorem store8_isSome {m : Memory} {a : Nat} {b : UInt8} :
    (store8 m a b).isSome ↔ physBase - pgSize ≤ a ∧ a < physBase := by
  rw [store8, inStack]
  split <;> simp_all

theorem store32_isSome {m : Memory} {a v : Nat} :
    (store32 m a v).isSome ↔ physBase - pgSize ≤ a ∧ a + 3 < physBase := by
  rw [store32, inStack, inStack]
  split
  · rename_i h
    simp only [Bool.and_eq_true, decide_eq_true_eq] at h
    simp only [Option.isSome_some, true_iff]
    omega
  · rename_i h
    simp only [Bool.and_eq_true, decide_eq_true_eq] at h
    simp only [Option.isSome_none, Bool.false_eq_true, false_iff]
    omega

/-- The runs of spaces, in the order the loop meets them. -/
def spaceRuns : List UInt8 → Nat
  | [] => 0
  | ch :: rest => if ch = 32 then spaceRuns (rest.dropWhile (· == 32)) + 1 else spaceRuns rest
termination_by l => l.length
decreasing_by
  · have hle := (List.dropWhile_suffix (l := rest) (· == 32)).length_le
    simp only [List.length_cons]
    omega
  · simp

theorem spaceRuns_of_not_mem (h : 32 ∉ l) : spaceRuns l = 0 := by
  induction l with
  | nil => rw [spaceRuns]
  | cons ch l ih =>
    rw [List.mem_cons, not_or] at h
    rw [spaceRuns, if_neg (Ne.symm h.1), ih h.2]

/-- A loop that ends has stored a pointer for every run of spaces. -/
theorem pushLoop_argv {s s' : Push} (h : pushLoop l s = some s') :
    s'.argv = s.argv - 4 * spaceRuns l := by
  fun_induction pushLoop l s with
  | case1 s =>
    cases h
    rw [spaceRuns]
    rfl
  | case2 rest s ih =>
    obtain ⟨m, -, h⟩ := Option.bind_eq_some_iff.mp h
    obtain ⟨m', -, h⟩ := Option.bind_eq_some_iff.mp h
    rw [ih m' h, spaceRuns, if_pos rfl]
    simp only
    omega
  | case3 ch rest s hch ih =>
    obtain ⟨m, -, h⟩ := Option.bind_eq_some_iff.mp h
    rw [ih m h, spaceRuns, if_neg hch]

/-- The loop does not fault if there is room below `esp` for the characters and
    below `argv` for the pointers. -/
theorem pushLoop_isSome {s : Push} (hesp : s.esp ≤ physBase)
    (hargv : s.argv ≤ physBase) (hchars : physBase - pgSize + l.length ≤ s.esp)
    (hptrs : physBase - pgSize + 4 * spaceRuns l ≤ s.argv) : (pushLoop l s).isSome := by
  have hpos : 0 < physBase - pgSize := by decide
  fun_induction pushLoop l s with
  | case1 s => rfl
  | case2 rest s ih =>
    have hle := (List.dropWhile_suffix (l := rest) (· == 32)).length_le
    rw [spaceRuns, if_pos rfl] at hptrs
    rw [List.length_cons] at hchars
    obtain ⟨m, hm⟩ := Option.isSome_iff_exists.mp
      (store32_isSome (m := s.mem) (a := s.argv - 4) (v := s.esp) |>.mpr (by omega))
    obtain ⟨m', hm'⟩ := Option.isSome_iff_exists.mp
      (store8_isSome (m := m) (a := s.esp - 1) (b := 0) |>.mpr (by omega))
    rw [hm, Option.bind_some, hm', Option.bind_some]
    exact ih m' (by simp only; omega) (by simp only; omega) (by simp only; omega)
      (by simp only; omega)
  | case3 ch rest s hch ih =>
    rw [spaceRuns, if_neg hch] at hptrs
    rw [List.length_cons] at hchars
    obtain ⟨m, hm⟩ := Option.isSome_iff_exists.mp
      (store8_isSome (m := s.mem) (a := s.esp - 1) (b := ch) |>.mpr (by omega))
    rw [hm, Option.bind_some]
    exact ih m (by simp only; omega) hargv (by simp only; omega) hptrs

/-- The space the arguments take: the characters with the final null, rounded up
    to a word, a pointer for each argument and a null pointer, and `argv`,
    `argc` and a return address. -/
def argumentBytes (cmdLine : List UInt8) : Nat :=
  (cmdLine.length + 4) / 4 * 4 + 4 * (spaceRuns cmdLine.reverse + 5)

theorem spaceRuns_zero_cons (l : List UInt8) : spaceRuns (0 :: l) = spaceRuns l := by
  rw [spaceRuns, if_neg (by decide)]

theorem roundDown_eq {n : Nat} (hn : n < pgSize) :
    (physBase - n - 1) / 4 * 4 = physBase - (n + 4) / 4 * 4 := by
  have h1 : physBase = 3221225472 := rfl
  have h2 : pgSize = 4096 := rfl
  omega

theorem pushArguments_isSome {m : Memory} (hlen : cmdLine.length < pgSize)
    (hfit : argumentBytes cmdLine ≤ pgSize) : ∃ s, pushArguments m cmdLine = some s := by
  have h1 : physBase = 3221225472 := rfl
  have h2 : pgSize = 4096 := rfl
  rw [argumentBytes] at hfit
  rw [pushArguments, roundDown_eq hlen]
  obtain ⟨m₁, hm₁⟩ := Option.isSome_iff_exists.mp (store32_isSome (m := m) (v := 0)
    (a := physBase - (cmdLine.length + 4) / 4 * 4 - 4) |>.mpr (by omega))
  obtain ⟨s, hs⟩ := Option.isSome_iff_exists.mp (pushLoop_isSome (l := 0 :: cmdLine.reverse)
    (s := ⟨physBase, physBase - (cmdLine.length + 4) / 4 * 4 - 4, 1, m₁⟩) (Nat.le_refl _)
    (by simp only; omega)
    (by simp only [List.length_cons, List.length_reverse]; omega)
    (by rw [spaceRuns_zero_cons]; simp only; omega))
  have hargv := pushLoop_argv hs
  rw [spaceRuns_zero_cons] at hargv
  simp only at hargv
  obtain ⟨m₂, hm₂⟩ := Option.isSome_iff_exists.mp (store32_isSome (m := s.mem) (a := s.argv - 4)
    (v := s.esp) |>.mpr (by omega))
  rw [hm₁, Option.bind_some, hs, Option.bind_some, hm₂]
  exact ⟨_, rfl⟩

/-- Where the pointers begin. -/
theorem pushArguments_esp {m : Memory} {s : Push}
    (hlen : cmdLine.length < pgSize) (h : pushArguments m cmdLine = some s) :
    s.esp = physBase - (cmdLine.length + 4) / 4 * 4 - 4 - 4 * spaceRuns cmdLine.reverse - 4 := by
  rw [pushArguments, roundDown_eq hlen] at h
  obtain ⟨m₁, -, h⟩ := Option.bind_eq_some_iff.mp h
  obtain ⟨s₁, hs₁, h⟩ := Option.bind_eq_some_iff.mp h
  obtain ⟨m₂, -, rfl⟩ := Option.map_eq_some_iff.mp h
  have hargv := pushLoop_argv hs₁
  rw [spaceRuns_zero_cons] at hargv
  rw [hargv]

/-- The stack is built without a fault exactly if everything fits into one
    page. -/
theorem setupArguments_isSome_iff {m : Memory} (hlen : cmdLine.length < pgSize) :
    (setupArguments m cmdLine).isSome ↔ argumentBytes cmdLine ≤ pgSize := by
  have h1 : physBase = 3221225472 := rfl
  have h2 : pgSize = 4096 := rfl
  constructor
  · intro h
    obtain ⟨r, h⟩ := Option.isSome_iff_exists.mp h
    obtain ⟨s, hs, h⟩ := Option.bind_eq_some_iff.mp h
    obtain ⟨m₁, -, h⟩ := Option.bind_eq_some_iff.mp h
    obtain ⟨m₂, -, h⟩ := Option.bind_eq_some_iff.mp h
    obtain ⟨m₃, hm₃, -⟩ := Option.map_eq_some_iff.mp h
    -- the last store is the lowest
    have hlow := store32_isSome.mp (Option.isSome_iff_exists.mpr ⟨m₃, hm₃⟩)
    have hesp := pushArguments_esp hlen hs
    rw [argumentBytes]
    omega
  · intro hfit
    obtain ⟨s, hs⟩ := pushArguments_isSome (m := m) hlen hfit
    have hesp := pushArguments_esp hlen hs
    rw [argumentBytes] at hfit
    obtain ⟨m₁, hm₁⟩ := Option.isSome_iff_exists.mp (store32_isSome (m := s.mem) (a := s.esp - 4)
      (v := s.argv) |>.mpr (by omega))
    obtain ⟨m₂, hm₂⟩ := Option.isSome_iff_exists.mp (store32_isSome (m := m₁) (a := s.esp - 8)
      (v := s.argc) |>.mpr (by omega))
    obtain ⟨m₃, hm₃⟩ := Option.isSome_iff_exists.mp (store32_isSome (m := m₂) (a := s.esp - 12)
      (v := 0) |>.mpr (by omega))
    rw [setupArguments, hs, Option.bind_some, hm₁, Option.bind_some, hm₂, Option.bind_some, hm₃]
    rfl

end Pintos.Userprog
