/-
  Pintos.Userprog.SyscallLock

  The file-system lock in the faults of a system call: `lock_acquire` asserts
  that the running thread does not hold the lock that `page_fault` takes.

  Result:
  - no fault takes the lock for a thread that holds it, but for the copy of a
    name that `SYS_READDIR` makes to a page that has to be loaded under the lock
    or may not be written
-/

import Pintos.Userprog.SyscallEnds

namespace Pintos.Userprog

open Pintos.Base

variable {env : Env} {p : Proc} {k : Kernel} {mem : Memory} {inUse : List Nat}

/-- The call gets to `dir_readdir`, with the lock. -/
structure ReachesReaddir (env : Env) (p : Proc) (mem : Memory) : Prop where
  started : Started env p
  nr : SysNr.decode (wordAt mem p.esp) = some .readdir
  pointers : checkUserBuffer (p.esp + 4) 8 = true
  fd : fatalWord env p 4 (p.esp + 4) = false
  name : fatalWord env p 8 (p.esp + 8) = false
  buffer : checkUserBuffer (wordAt mem (p.esp + 8)) (nameMax + 1) = true
  dir : ∃ entry, fdLookup p (toInt32 (wordAt mem (p.esp + 4))) = some entry ∧ entry.isDir = true

/-- Every byte of the name is stored without taking the lock: the page is
    writable, and it is present or can be loaded from swap into a free frame.
    Twelve bytes of arguments are read before. -/
def ReaddirSafe (env : Env) (p : Proc) (mem : Memory) : Prop :=
  ReachesReaddir env p mem → ∀ name, env.dirEntry = some name → ∀ i ≤ min nameMax name.length,
    takesLock env p (12 + i) true (wordAt mem (p.esp + 8) + i) = false

/-- The lock is taken and given back around `dir_readdir`. -/
theorem locked_readdir (hfree : k.lockHeld = false) {buf : Nat} :
    (∀ k', locked (dirReaddir env p buf) k ≠ .error (.panic .lockAcquire) k') ↔
      ∀ name, env.dirEntry = some name → ∀ i ≤ min nameMax name.length,
        takesLock env p (k.accesses + i) true (buf + i) = false := by
  have hstart : locked (dirReaddir env p buf) k =
      (do let r ← dirReaddir env p buf; filesysLockRelease; return r : Sys Int)
        { k with lockHeld := true } := bind_ok (filesysLockAcquire_free hfree)
  have hdir := dirReaddir_held env p k.accesses buf { k with lockHeld := true }
    ⟨rfl, rfl⟩
  rw [hstart]
  split at hdir
  · rename_i r k' hok
    refine iff_of_true (fun k'' => ?_) hdir.2
    rw [bind_ok hok, bind_ok (filesysLockRelease_held hdir.1)]
    nofun
  · rename_i e k' herr
    obtain ⟨rfl, name, hname, i, hi, hlock⟩ := hdir
    refine iff_of_false (fun h => h k' (bind_error herr)) fun h => ?_
    have := h name hname i hi
    rw [hlock] at this
    cases this

/-- The body of `SYS_READDIR`: a test that fails ends it before the lock is
    taken. -/
theorem sysReaddir_iff (hfree : k.lockHeld = false) {fd : Int} {buf : Nat} :
    (∀ k', sysReaddir env p fd buf k ≠ .error (.panic .lockAcquire) k') ↔
      (checkUserBuffer buf (nameMax + 1) = true →
        (∃ entry, fdLookup p fd = some entry ∧ entry.isDir = true) →
        ∀ name, env.dirEntry = some name → ∀ i ≤ min nameMax name.length,
          takesLock env p (k.accesses + i) true (buf + i) = false) := by
  cases hbuf : checkUserBuffer buf (nameMax + 1) with
  | false =>
    have hexit : sysReaddir env p fd buf k = .error .exited k :=
      bind_error (exit_when hfree (by rw [hbuf]; rfl))
    exact iff_of_true (fun k' => by rw [hexit]; simp) (by simp)
  | true =>
    rw [sysReaddir, bind_ok (when_false (by rw [hbuf]; rfl))]
    cases hfd : fdLookup p fd with
    | none =>
      refine iff_of_true (fun k' h => ?_) (by simp)
      cases h
    | some entry =>
      cases hdir : entry.isDir with
      | false =>
        refine iff_of_true (fun k' h => ?_) (by simp [hdir])
        simp only [hdir] at h
        cases h
      | true =>
        simp only [hdir, if_true]
        rw [locked_readdir hfree]
        exact ⟨fun h _ _ => h, fun h => h trivial ⟨entry, rfl, hdir⟩⟩

/-- `SYS_READDIR` after its number has been read. -/
theorem readdir_iff (hstart : Started env p)
    (hnr : SysNr.decode (wordAt mem p.esp) = some .readdir) :
    (∀ k', dispatch env p .readdir ((Kernel.enter mem inUse).tick 4) ≠
      .error (.panic .lockAcquire) k') ↔ ReaddirSafe env p mem := by
  let k := Kernel.enter mem inUse
  have hfree : ∀ n, (k.tick n).lockHeld = false := fun _ => rfl
  have hacc : ∀ n, (k.tick n).accesses = n := fun n => Nat.zero_add n
  -- a word that cannot be read, or a pointer that is not one of the user, ends the call
  have hends : ∀ {e : Stop} {k' : Kernel}, dispatch env p .readdir (k.tick 4) = .error e k' →
      e ≠ .panic .lockAcquire → ¬ ReachesReaddir env p mem →
      ((∀ k', dispatch env p .readdir (k.tick 4) ≠ .error (.panic .lockAcquire) k') ↔
        ReaddirSafe env p mem) := by
    intro e k' hr hne hreach
    refine iff_of_true (fun k'' heq => ?_) fun h => absurd h hreach
    rw [hr] at heq
    cases heq
    exact hne rfl
  cases hptr : checkUserBuffer (p.esp + 4) 8 with
  | false =>
    refine hends (bind_error (validatePointers_exited (hfree 4) hptr)) nofun fun h => ?_
    rw [h.pointers] at hptr
    cases hptr
  | true =>
    have hval : validatePointers p 2 (k.tick 4) = .ok () (k.tick 4) := validatePointers_ok hptr
    cases hfd : fatalWord env p 4 (p.esp + 4) with
    | true =>
      obtain ⟨n, hn⟩ := loadWord_killed (hfree 4) (by rw [hacc]; exact hfd)
      refine hends ((bind_ok hval).trans (bind_error hn)) nofun fun h => ?_
      rw [h.fd] at hfd
      cases hfd
    | false =>
      have hfd' : argument env p 1 (k.tick 4) = .ok (wordAt mem (p.esp + 4)) (k.tick 8) :=
        (loadWord_ok (hfree 4) (by rw [hacc]; exact hfd)).trans (by rw [tick_tick]; rfl)
      cases hname : fatalWord env p 8 (p.esp + 8) with
      | true =>
        obtain ⟨n, hn⟩ := loadWord_killed (hfree 8) (by rw [hacc]; exact hname)
        refine hends ((bind_ok hval).trans ((bind_ok hfd').trans (bind_error hn)))
          nofun fun h => ?_
        rw [h.name] at hname
        cases hname
      | false =>
        have hname' : argument env p 2 (k.tick 8) = .ok (wordAt mem (p.esp + 8)) (k.tick 12) :=
          (loadWord_ok (hfree 8) (by rw [hacc]; exact hname)).trans (by rw [tick_tick]; rfl)
        have hbody : dispatch env p .readdir (k.tick 4) =
            sysReaddir env p (toInt32 (wordAt mem (p.esp + 4))) (wordAt mem (p.esp + 8))
              (k.tick 12) :=
          (bind_ok hval).trans ((bind_ok hfd').trans (bind_ok hname'))
        rw [hbody, sysReaddir_iff (hfree 12), hacc]
        refine ⟨fun h hreach => h hreach.buffer hreach.dir, fun h hbuf hdir => ?_⟩
        exact h ⟨hstart, hnr, hptr, hfd, hname, hbuf, hdir⟩

/-- The filesystem lock is never taken twice: of all calls, in every state of the
    pages, only a `SYS_READDIR` whose copy of the name takes the lock fails the
    assertion of `lock_acquire`. -/
theorem filesys_lock_taken_once (env : Env) (p : Proc) (mem : Memory) (inUse : List Nat) :
    (∀ k', syscallHandler env p (.enter mem inUse) ≠ .error (.panic .lockAcquire) k') ↔
      ReaddirSafe env p mem := by
  by_cases hstart : Started env p
  · rw [syscallHandler_started mem inUse hstart]
    cases hnr : SysNr.decode (wordAt mem p.esp) with
    | none =>
      refine iff_of_true (fun k' => nofun) fun h => ?_
      rw [h.nr] at hnr
      cases hnr
    | some nr =>
      by_cases hread : nr = .readdir
      · subst hread
        exact readdir_iff hstart hnr
      · refine iff_of_true (fun k' hk' => ?_) fun h => ?_
        · have hcleared : Cleared env p mem (· = .panic .lockAcquire) nr :=
            ⟨nofun, nofun, fun h => absurd h hread, fun a ha hbad => ?_, nofun⟩
          · cases (hcleared.dispatch.error (At.enter.tick 4) hk' rfl).1
          · cases hbad
            cases ha
        · rw [h.nr] at hnr
          cases hnr
          exact absurd rfl hread
  · obtain ⟨e, n, he, hcase⟩ := syscallHandler_not_started mem inUse hstart
    refine iff_of_true (fun k' => ?_) fun h => absurd h.started hstart
    rw [he]
    rcases hcase with rfl | rfl <;> nofun

/-- A process with descriptor 2 for a directory, and its stack pointer in page 1. -/
def readdirProc : Proc where
  rights pg := if pg = 1 ∨ pg = 2 then .writable else .unmapped
  fdTable := [⟨2, true⟩]
  esp := 4096

/-- Page 2 is a page of the executable that has not been loaded yet. -/
def readdirEnv : Env where
  presence _ pg := if pg = 2 then .inFile else .resident
  evicts _ := false
  loadFails _ := false
  answer _ := 1
  input _ := 97
  dirEntry := some [97]

/-- `readdir (2, 8192)`: the number of the call and its arguments on the stack. -/
def readdirMemory : Memory := fun a =>
  if a = 4096 then 17 else if a = 4100 then 2 else if a = 4105 then 32 else 0

/-- The page fault of the copy takes the lock that the call holds. -/
theorem readdir_takes_lock_twice : ∃ k',
    syscallHandler readdirEnv readdirProc (.enter readdirMemory []) =
      .error (.panic .lockAcquire) k' :=
  ⟨_, rfl⟩

end Pintos.Userprog
