/-
  Pintos.Fs.Filesys

  Paths (filesys/filesys.c).  `resolve_path` walks from the root or from the working
  directory through all but the last of the components of a path.  Its loop is one
  token behind `strtok_r`, since it learns only from the next token that the last one
  was not the final component.

  The working directory of the calling thread is an argument; a path is the string
  before its null byte.
-/

import Pintos.Fs.Directory
import Pintos.Lib.Strtok
import Pintos.Lib.String

namespace Pintos.Fs

open Pintos.Base Pintos.Lib Tokenizer

/-- '/' -/
def slash : UInt8 := 47

/-! ## Paths -/

/-- The loop of `resolve_path` over the tokens of the path.  It lags one token
    behind: `prev` is traversed once the next token is seen. -/
def resolveLoop : Dir → Option Bytes → List Bytes → M (Option (Dir × Option Bytes))
  | dir, prev, [] => pure (some (dir, prev))
  | dir, none, token :: rest => resolveLoop dir (some token) rest
  | dir, some prev, token :: rest => do
    match ← dirLookup dir prev with
    | none => do
      dirClose (some dir)
      pure none
    | some inode =>
      if ← inodeIsDir inode then do
        dirClose (some dir)
        match ← dirOpen (some inode) with
        | none => pure none
        | some dir => resolveLoop dir (some token) rest
      else do
        inodeClose (some inode)
        dirClose (some dir)
        pure none

/-- The end of `resolve_path`: the directory must not be removed. -/
def resolveEnd (dir : Dir) (name : Bytes) : M (Option (Dir × Bytes)) := do
  if ← inodeIsRemoved dir.inode then do
    dirClose (some dir)
    pure none
  else pure (some (dir, name))

/-- Where `resolve_path` starts. -/
def resolveStart (cwd : Option Dir) (path : Bytes) : M (Option Dir) :=
  if path.head? = some slash then dirOpenRoot
  else
    match cwd with
    | some dir => dirReopen dir
    | none => dirOpenRoot

/-- `resolve_path`: the parent directory and the last component. -/
def resolvePath (cwd : Option Dir) (path : Bytes) : M (Option (Dir × Bytes)) := do
  if path = [] then pure none
  else if ← malloc then
    match ← resolveStart cwd path with
    | none => pure none
    | some dir =>
      match ← resolveLoop dir none (tokens slash path) with
      | none => pure none
      | some (dir, none) => resolveEnd dir dot
      | some (dir, some prev) =>
        if NAME_MAX < prev.length then do
          dirClose (some dir)
          pure none
        else resolveEnd dir prev
  else pure none

/-- `if (!success && sector != 0) free_map_release (sector, 1)`. -/
def releaseFailed (success : Bool) (sector : Sector) : M Unit :=
  if !success ∧ sector ≠ 0 then freeMapRelease sector 1 else pure ()

/-! ## The specification -/

/-- The maximal parts of a path that are not empty and have no slash. -/
def components (path : Bytes) : List Bytes := words [slash] path

/-- From a directory, which is closed, into a directory in it; nothing if the name is
    missing or is not that of a directory. -/
def enter (dir : Dir) (name : Bytes) : M (Option Dir) := do
  match ← dirLookup dir name with
  | none => do
    dirClose (some dir)
    pure none
  | some inode =>
    if ← inodeIsDir inode then do
      dirClose (some dir)
      dirOpen (some inode)
    else do
      inodeClose (some inode)
      dirClose (some dir)
      pure none

def walk (dir : Dir) : List Bytes → M (Option Dir)
  | [] => pure (some dir)
  | name :: rest => do
    match ← enter dir name with
    | none => pure none
    | some dir => walk dir rest

/-- The directory behind all but the last component, and that component; nothing if it
    is too long or the directory is removed. -/
def walkPath (cwd : Option Dir) (path : Bytes) : M (Option (Dir × Bytes)) := do
  if path = [] then pure none
  else if ← malloc then
    match ← resolveStart cwd path with
    | none => pure none
    | some dir =>
      match ← walk dir (components path).dropLast with
      | none => pure none
      | some dir =>
        let name := (components path).getLast?.getD dot
        if NAME_MAX < name.length then do
          dirClose (some dir)
          pure none
        else resolveEnd dir name
  else pure none

variable {path : Bytes}

/-! ## Tokens -/

/-- The first token of a path is its first component, and the other components are
    those of what is behind it. -/
theorem components_of_strtokR {token rest : Bytes} (h : Lib.strtokR slash path = some (token, rest)) :
    components path = token :: components rest := by
  rw [Lib.strtokR] at h
  split at h
  · cases h
  · rename_i c s heq
    cases h
    have hskip : ∀ x ∈ path.takeWhile (· == slash), x ∈ [slash] := fun x hx => by
      simpa using List.mem_takeWhile_imp hx
    have hc := List.head?_dropWhile_not (· == slash) path
    rw [heq] at hc
    have htoken : ∀ x ∈ c :: s.takeWhile (· != slash), ¬ x ∈ [slash] := by
      intro x hx
      rcases List.mem_cons.mp hx with rfl | hx
      · simpa using hc
      · simpa using List.mem_takeWhile_imp hx
    have hsplit : words [slash] (c :: s) = words [slash]
        (c :: s.takeWhile (· != slash) ++ s.dropWhile (· != slash)) := by
      rw [List.cons_append, List.takeWhile_append_dropWhile]
    rw [components, ← List.takeWhile_append_dropWhile (p := (· == slash)) (l := path),
      words_skip hskip, heq, hsplit]
    -- the token ends at a slash or at the end of the path
    rcases hrest : s.dropWhile (· != slash) with _ | ⟨d, r⟩
    · rw [List.append_nil, words, List.splitOnP_eq_singleton (by simpa using htoken)]
      simp [components, words]
    · have hd := List.head?_dropWhile_not (· != slash) s
      rw [hrest] at hd
      rw [words, List.splitOnP_append_cons_of_forall_mem (by simpa using htoken) d (by simpa using hd)]
      simp [components, words]

theorem components_eq_nil : components path = [] ↔ Lib.strtokR slash path = none := by
  cases h : Lib.strtokR slash path with
  | none =>
    have hall := Lib.strtokR_eq_none.mp h
    rw [components, ← List.append_nil path, words_skip (by simpa using hall)]
    exact iff_of_true rfl rfl
  | some r =>
    rw [components_of_strtokR h]
    exact iff_of_false (List.cons_ne_nil _ _) (Option.some_ne_none _)

theorem tokens_eq_components (path : Bytes) : tokens slash path = components path := by
  induction path using tokens.induct slash with
  | case1 path h =>
    rw [components_eq_nil.mpr h, tokens]
    split
    · rfl
    · rename_i heq
      cases h.symm.trans heq
  | case2 path token rest h ih =>
    rw [components_of_strtokR h, ← ih, tokens]
    split
    · rename_i heq
      cases h.symm.trans heq
    · rename_i heq
      cases h.symm.trans heq
      rfl

/-! ## The loop -/

theorem resolveLoop_eq_walk (dir : Dir) (prev : Bytes) (l : List Bytes) :
    resolveLoop dir (some prev) l = (do
      match ← walk dir (prev :: l).dropLast with
      | none => pure none
      | some dir => pure (some (dir, (prev :: l).getLast?))) := by
  induction l generalizing dir prev with
  | nil => rfl
  | cons token rest ih =>
    rw [resolveLoop, List.dropLast_cons_cons, walk, enter, List.getLast?_cons_cons]
    simp only [bind_assoc]
    congr 1
    funext inode
    cases inode with
    | none => simp only [bind_assoc, pure_bind]
    | some inode =>
      simp only [bind_assoc]
      congr 1
      funext isDir
      cases isDir with
      | false => simp only [Bool.false_eq_true, if_false, bind_assoc, pure_bind]
      | true =>
        simp only [if_true, bind_assoc]
        congr 1
        funext _
        congr 1
        funext dir
        cases dir with
        | none => rfl
        | some dir => exact ih dir token

/-- Only the empty path has no component and no slash. -/
theorem eq_nil_iff : path = [] ↔ components path = [] ∧ path.head? ≠ some slash := by
  cases path with
  | nil => exact iff_of_true rfl ⟨rfl, nofun⟩
  | cons c path =>
    refine iff_of_false (List.cons_ne_nil _ _) ?_
    rintro ⟨hnil, hhead⟩
    have hc := Lib.strtokR_eq_none.mp (components_eq_nil.mp hnil) c List.mem_cons_self
    exact hhead (congrArg some hc)

/-- The root directory has its data in sector 2, and in it the directory "a" of sector 3. -/
def smallTree : State where
  size := 4
  disk n := if n = 1 then setIsDir (setWord (setLength zeros 20) 8 2) 1
    else if n = 2 then copyTo zeros 0 ([3, 0, 0, 0, 97] ++ .replicate 14 0 ++ [1])
    else setIsDir zeros 1
  freeMap := []
  freeMapFile := false
  openInodes := []
  mallocs := []

end Pintos.Fs
