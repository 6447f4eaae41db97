/-
  Pintos.Userprog.SyscallEnds

  How a system call can end.  A call that runs without the file-system lock may
  be killed by an access to user memory, with or without kernel memory of its own
  in hand, and may fail an assertion about its arguments.

  `Cleared` says of a set of reasons which of these are not among them, and
  `Cleared.dispatch` follows the programs of all calls: a call that stops for one
  of the reasons has been killed, and has nothing of its own in use.
-/

import Pintos.Userprog.SyscallCopies

namespace Pintos.Userprog

open Pintos.Base

variable {env : Env} {p : Proc} {mem : Memory} {inUse inUse' : List Nat} {α : Type}
  {bad : Stop → Prop} {buf size : Nat} {fd : Int}

/-! ## The memory of a call -/

/-- `read_from_fd` or `write_to_fd` gets to its bounce buffer; `std` is the
    descriptor of the console. -/
structure UsesBounce (p : Proc) (fd std : Int) (buf size : Nat) : Prop where
  nonempty : size ≠ 0
  buffer : checkUserBuffer buf size = true
  console : fd ≠ std
  file : ∃ entry, fdLookup p fd = some entry ∧ entry.isDir = false

/-- What has to be accessible for a call. -/
def LeakFree (p : Proc) (mem : Memory) : SysNr → Prop
  | .exec | .remove | .open | .chdir | .mkdir =>
    checkUserBuffer (p.esp + 4) 4 = true → canReadWord p (p.esp + 4) →
      stringAt p mem (wordAt mem (p.esp + 4)) ≠ .fault
  | .create =>
    checkUserBuffer (p.esp + 4) 8 = true → canReadWord p (p.esp + 4) →
      stringAt p mem (wordAt mem (p.esp + 4)) ≠ .fault ∧
      ∀ s, stringAt p mem (wordAt mem (p.esp + 4)) = .str s → canReadWord p (p.esp + 8)
  | .read =>
    checkUserBuffer (p.esp + 4) 12 = true →
      canReadWord p (p.esp + 4) → canReadWord p (p.esp + 8) → canReadWord p (p.esp + 12) →
      UsesBounce p (toInt32 (wordAt mem (p.esp + 4))) 0 (wordAt mem (p.esp + 8))
        (wordAt mem (p.esp + 12)) →
      ∀ i < wordAt mem (p.esp + 12), canWrite p (wordAt mem (p.esp + 8) + i)
  | .write =>
    checkUserBuffer (p.esp + 4) 12 = true →
      canReadWord p (p.esp + 4) → canReadWord p (p.esp + 8) → canReadWord p (p.esp + 12) →
      UsesBounce p (toInt32 (wordAt mem (p.esp + 4))) 1 (wordAt mem (p.esp + 8))
        (wordAt mem (p.esp + 12)) →
      ∀ i < wordAt mem (p.esp + 12), canRead p (wordAt mem (p.esp + 8) + i)
  | _ => True

/-! ## The arguments of a call -/

/-- The assertions about arguments; the others are those of the lock. -/
def Assertion.ofArguments : Assertion → Bool
  | lockAcquire | lockRelease => false
  | file | newPos | length | name => true

/-- The descriptor of a call is not a directory. -/
def NoDirectory (p : Proc) (mem : Memory) : Prop :=
  ∀ entry, fdLookup p (toInt32 (wordAt mem (p.esp + 4))) = some entry → entry.isDir = false

/-- What the arguments of a call have to satisfy. -/
def AssertsHold (p : Proc) (mem : Memory) : SysNr → Prop
  | .exec =>
    checkUserBuffer (p.esp + 4) 4 = true → canReadWord p (p.esp + 4) →
      ∀ s, stringAt p mem (wordAt mem (p.esp + 4)) = .str s → ∃ ch ∈ s.take 15, ch ≠ 32
  | .create =>
    checkUserBuffer (p.esp + 4) 8 = true → canReadWord p (p.esp + 4) →
      canReadWord p (p.esp + 8) →
      ∀ s, stringAt p mem (wordAt mem (p.esp + 4)) = .str s → mayResolve s = true →
        0 ≤ toInt32 (wordAt mem (p.esp + 8))
  | .filesize | .tell =>
    checkUserBuffer (p.esp + 4) 4 = true → canReadWord p (p.esp + 4) → NoDirectory p mem
  | .seek =>
    checkUserBuffer (p.esp + 4) 8 = true → canReadWord p (p.esp + 4) →
      canReadWord p (p.esp + 8) →
      NoDirectory p mem ∧
        ((fdLookup p (toInt32 (wordAt mem (p.esp + 4)))).isSome = true →
          0 ≤ toInt32 (wordAt mem (p.esp + 8)))
  | .mmap =>
    checkUserBuffer (p.esp + 4) 8 = true → canReadWord p (p.esp + 4) →
      canReadWord p (p.esp + 8) →
      toInt32 (wordAt mem (p.esp + 4)) ≤ 1 ∨ wordAt mem (p.esp + 8) = 0 ∨
        wordAt mem (p.esp + 8) % pgSize ≠ 0 ∨ NoDirectory p mem
  | _ => True

/-- The thread of a command line has a name unless the first 15 characters are
    spaces. -/
theorem threadName_isSome {s : List UInt8} :
    (threadName s).isSome = true ↔ ∃ ch ∈ s.take 15, ch ≠ 32 := by
  rw [threadName, Option.isSome_map, Option.isSome_iff_ne_none, ne_eq, Lib.strtokR_eq_none]
  simp

/-! ## The walk over the calls -/

/-- None of the calls stops for a `bad` reason, unless it is killed with nothing
    of its own in use. -/
structure Cleared (env : Env) (p : Proc) (mem : Memory) (bad : Stop → Prop) (nr : SysNr) :
    Prop where
  exited : ¬bad .exited
  halted : ¬bad .halted
  readdir : nr = .readdir → ¬bad (.panic .lockAcquire)
  asserts : ∀ a : Assertion, a.ofArguments = true → bad (.panic a) → AssertsHold p mem nr
  killed : bad .killed → ¬LoadsFail env ∧ LeakFree p mem nr

/-- The program starts with `inUse'` in use.  If it stops for a `bad` reason, the
    process has been killed and `inUse` is in use. -/
abbrev Ends (bad : Stop → Prop) (mem : Memory) (inUse inUse' : List Nat) (q : Sys α) : Prop :=
  Triple (At mem inUse') q (fun _ _ => True) fun e k => bad e → e = .killed ∧ k.inUse = inUse

theorem Respects.ends {q : Sys α} (h : Respects (fun k => k.lockHeld = false) bad q) :
    Ends bad mem inUse inUse' q :=
  h.conseq (fun _ hk => hk.free) (fun _ _ _ => trivial) fun _ _ hne hbad => absurd hbad hne

theorem Dies.ends {c : Prop} {e : Stop} {k : Kernel} (h : Dies env c inUse e k) :
    bad e → e = .killed ∧ k.inUse = inUse :=
  fun _ => ⟨h.killed, h.inUse⟩

/-- `if (!b) exit (-1);` -/
theorem check_ends (hexit : ¬bad .exited) (b : Bool) :
    Triple (At mem inUse) (when (!b) exit) (fun _ k => b = true ∧ At mem inUse k)
      fun e k => bad e → e = .killed ∧ k.inUse = inUse := by
  intro k hk
  cases b with
  | true => exact ⟨rfl, hk⟩
  | false =>
    have hrun : when (!false) exit k = .error .exited k := exit_when hk.free rfl
    rw [hrun]
    exact fun hbad => absurd hbad hexit

/-- The first argument that a call reads, and what it goes on with. -/
theorem arguments_ends (hexit : ¬bad .exited) {count i : Nat} {q : Nat → Sys α}
    (hq : checkUserBuffer (p.esp + 4) (4 * count) = true → canReadWord p (p.esp + 4 * i) →
      Ends bad mem inUse inUse (q (wordAt mem (p.esp + 4 * i)))) :
    Ends bad mem inUse inUse (do validatePointers p count; q (← argument env p i)) :=
  Triple.bind (check_ends hexit _) fun _ => Triple.of_imp fun hptr =>
    argument_then (fun _ _ h => h.ends) (hq hptr)

theorem argument_ends {i : Nat} {q : Nat → Sys α} (hq : canReadWord p (p.esp + 4 * i) →
      Ends bad mem inUse inUse (q (wordAt mem (p.esp + 4 * i)))) :
    Ends bad mem inUse inUse (do q (← argument env p i)) :=
  argument_then (fun _ _ h => h.ends) hq

theorem withString_ends (hexit : ¬bad .exited) {ustr : Nat} {call : List UInt8 → Sys α}
    (hstr : bad .killed → ¬LoadsFail env ∧ stringAt p mem ustr ≠ .fault)
    (hcall : ∀ s kpage, stringAt p mem ustr = .str s →
      Ends bad mem inUse (kpage :: inUse) (call s)) :
    Ends bad mem inUse inUse (withString env p ustr call) := by
  refine Triple.bind ((copyInString_spec ustr).conseq (fun _ h => h) (fun _ _ h => h) ?_) fun r => ?_
  · rintro e k ⟨rfl, hcause⟩ hbad
    exact absurd (hcause (hstr hbad).2) (hstr hbad).1
  · cases r with
    | none =>
      refine Triple.pre (P := At mem inUse) (ambient hexit).exit.ends fun k hk => ?_
      rcases hk with hk | ⟨_, _, h, -⟩
      · exact hk.2
      · cases h
    | some r =>
      intro k hk
      obtain ⟨h, -⟩ | ⟨kpage, s, h, hs, hk⟩ := hk
      · cases h
      · cases h
        exact Triple.bind (hcall s kpage hs) (fun _ _ _ => trivial) k hk

theorem readFromFd_ends (hexit : ¬bad .exited) (hbuf : bad .killed → ¬LoadsFail env ∧
      (UsesBounce p fd 0 buf size → ∀ i < size, canWrite p (buf + i))) :
    Ends bad mem inUse inUse (readFromFd env p fd buf size) := by
  refine Triple.ite (fun _ => Triple.pure fun _ _ => trivial) fun hsize => ?_
  refine Triple.bind (Q := fun b k => (b = true → checkUserBuffer buf size = true) ∧ At mem inUse k)
    (fun k hk => ⟨fun h => (Bool.and_eq_true _ _ ▸ h : _ ∧ _).1, hk⟩) fun b =>
    Triple.of_imp fun hb => ?_
  refine Triple.bind (check_ends hexit b) fun _ => Triple.of_imp fun hok => ?_
  refine Triple.ite (fun _ => ?_) fun hfd => (Respects.bounce (ambient hexit) fun hfile => ?_).ends
  · exact Triple.bind ((copyOut_spec buf size).conseq (fun _ h => h.uses) (fun _ _ h => h)
      fun _ _ h => h.ends) fun _ => Triple.pure fun _ _ => trivial
  · refine Respects.readLoop (ambient hexit) (fun i hi => Respects.access fun hbad n => ?_) _ _
    have hwrite := (hbuf hbad).2 ⟨hsize, hb hok, hfd, hfile⟩ i hi
    exact not_fatal (hbuf hbad).1 hwrite.canRead fun _ => hwrite

theorem writeToFd_ends (hexit : ¬bad .exited) (hbuf : bad .killed → ¬LoadsFail env ∧
      (UsesBounce p fd 1 buf size → ∀ i < size, canRead p (buf + i))) :
    Ends bad mem inUse inUse (writeToFd env p fd buf size) := by
  refine Triple.ite (fun _ => Triple.pure fun _ _ => trivial) fun hsize => ?_
  refine Triple.bind (check_ends hexit _) fun _ => Triple.of_imp fun hok => ?_
  refine Triple.ite (fun _ => ?_) fun hfd => (Respects.bounce (ambient hexit) fun hfile => ?_).ends
  · exact Triple.bind ((copyIn_spec buf size).conseq (fun _ h => h.uses) (fun _ _ h => h)
      fun _ _ h => h.ends) fun _ => Triple.pure fun _ _ => trivial
  · refine Respects.writeLoop (ambient hexit) (fun i hi => Respects.access fun hbad n => ?_) _ _
    exact not_fatal (hbuf hbad).1 ((hbuf hbad).2 ⟨hsize, hok, hfd, hfile⟩ i hi) nofun

/-- `dir_readdir` touches user memory under the lock, where a fault is a failed
    assertion. -/
theorem Respects.sysReaddir (hexit : ¬bad .exited) (hlock : ¬bad (.panic .lockAcquire)) :
    Respects (fun k => k.lockHeld = false) bad (sysReaddir env p fd buf) := by
  refine bind (Respects.when fun _ => (ambient hexit).exit) fun _ => ?_
  split
  · exact pure _
  · refine ite ((ambient hexit).locked fun k hk => ?_) (pure _)
    refine (dirReaddir_held env p k.accesses buf).conseq (fun _ h => h) (fun _ _ h => h.1)
      (fun _ _ h => ?_) k ⟨hk, rfl⟩
    rw [h.1]
    exact hlock

/-- The calls, one by one. -/
theorem Cleared.dispatch {nr : SysNr} (h : Cleared env p mem bad nr) :
    Ends bad mem inUse inUse (dispatch env p nr) := by
  have hexit := h.exited
  have hamb := ambient hexit
  have hask : ∀ {held : Bool} (f : Nat → Int),
      Respects (fun k => k.lockHeld = held) bad (do return f (← ask env)) := fun f =>
    Respects.bind Respects.ask fun w => Respects.pure (f w)
  -- a descriptor that is not a directory
  have hfile : (bad (.panic .file) → NoDirectory p mem) → ∀ entry,
      fdLookup p (toInt32 (wordAt mem (p.esp + 4 * 1))) = some entry →
      entry.isDir = true → ¬bad (.panic .file) := by
    intro hno entry hentry hdir hbad
    rw [hno hbad entry hentry] at hdir
    cases hdir
  cases nr with
  | halt => exact Triple.throw fun _ _ hbad => absurd hbad h.halted
  | exit => exact arguments_ends hexit fun _ _ => hamb.exit.ends
  | exec =>
    refine arguments_ends hexit fun hptr hread => withString_ends hexit
      (fun hbad => ⟨(h.killed hbad).1, (h.killed hbad).2 hptr hread⟩) fun s _ hs => Respects.ends ?_
    refine Respects.processExecute fun hnone hbad => ?_
    rw [threadName_isSome.mpr (h.asserts .name rfl hbad hptr hread s hs)] at hnone
    cases hnone
  | wait => exact arguments_ends hexit fun _ _ => (hask fun w => (w : Int) - 1).ends
  | create =>
    refine arguments_ends hexit fun hptr hread => withString_ends hexit
      (fun hbad => ⟨(h.killed hbad).1, ((h.killed hbad).2 hptr hread).1⟩) fun s _ hs => ?_
    -- the size is read with the page in hand
    refine argument_then (fun e k hdies hbad => ?_) fun hsize => (hamb.locked ?_).ends
    · rw [hdies.killed] at hbad
      have hloads := hdies.cause (((h.killed hbad).2 hptr hread).2 s hs)
      exact absurd hloads (h.killed hbad).1
    · exact Respects.filesysCreate fun hres hneg hbad =>
        hneg (h.asserts .length rfl hbad hptr hread hsize s hs hres)
  | remove | «open» | chdir | mkdir =>
    exact arguments_ends hexit fun hptr hread => withString_ends hexit
      (fun hbad => ⟨(h.killed hbad).1, (h.killed hbad).2 hptr hread⟩) fun _ _ _ =>
      (hamb.locked (hask fun w => (w : Int) - 1)).ends
  | close =>
    exact arguments_ends hexit fun _ _ => (Respects.withFd hamb fun _ _ => Respects.pure _).ends
  | filesize | tell =>
    exact arguments_ends hexit fun hptr hread => (Respects.withFd hamb fun entry hentry =>
      Respects.fileLength (hfile (fun hbad => h.asserts .file rfl hbad hptr hread) entry hentry)).ends
  | read =>
    exact arguments_ends hexit fun hptr h₁ => argument_ends fun h₂ => argument_ends fun h₃ =>
      readFromFd_ends hexit fun hbad => ⟨(h.killed hbad).1, (h.killed hbad).2 hptr h₁ h₂ h₃⟩
  | write =>
    exact arguments_ends hexit fun hptr h₁ => argument_ends fun h₂ => argument_ends fun h₃ =>
      writeToFd_ends hexit fun hbad => ⟨(h.killed hbad).1, (h.killed hbad).2 hptr h₁ h₂ h₃⟩
  | seek =>
    refine arguments_ends hexit fun hptr h₁ => argument_ends fun h₂ =>
      (Respects.withFd hamb fun entry hentry => ?_).ends
    have hno := hfile (fun hbad => (h.asserts .file rfl hbad hptr h₁ h₂).1) entry hentry
    refine Respects.bind (Respects.fileSeek hno fun hneg hbad => hneg ?_) fun _ => Respects.pure _
    exact (h.asserts .newPos rfl hbad hptr h₁ h₂).2 (Option.isSome_iff_exists.mpr ⟨entry, hentry⟩)
  | mmap =>
    refine arguments_ends hexit fun hptr h₁ => argument_ends fun h₂ =>
      (Respects.mmapFile hamb fun hargs entry hentry => hfile (fun hbad => ?_) entry hentry).ends
    rw [not_or, not_or] at hargs
    exact (((h.asserts .file rfl hbad hptr h₁ h₂).resolve_left hargs.1).resolve_left
      hargs.2.1).resolve_left hargs.2.2
  | munmap =>
    exact arguments_ends hexit fun _ _ => (Respects.bind (hamb.locked
      (Respects.bind Respects.ask fun _ => Respects.pure _)) fun _ => Respects.pure _).ends
  | readdir =>
    exact arguments_ends hexit fun _ _ => argument_ends fun _ =>
      (Respects.sysReaddir hexit (h.readdir rfl)).ends
  | isdir => exact arguments_ends hexit fun _ _ => (Respects.pure _).ends
  | inumber =>
    exact arguments_ends hexit fun _ _ =>
      (Respects.withFd hamb fun _ _ => hask fun w => (w : Int)).ends

/-- A call from its start. -/
theorem syscallHandler_ends (bad : Stop → Prop) (hexit : ¬bad .exited)
    (h : ∀ nr, Calls p mem nr → Cleared env p mem bad nr) {e : Stop} {k' : Kernel}
    (hk' : syscallHandler env p (.enter mem inUse) = .error e k') (hbad : bad e) :
    e = .killed ∧ k'.inUse = inUse := by
  by_cases hstart : Started env p
  · rw [syscallHandler_started mem inUse hstart] at hk'
    cases hnr : SysNr.decode (wordAt mem p.esp) with
    | none =>
      rw [hnr] at hk'
      cases hk'
    | some nr =>
      rw [hnr] at hk'
      exact (h nr ⟨hstart.1, hstart.number, hnr⟩).dispatch.error (At.enter.tick 4) hk' hbad
  · obtain ⟨e', n, he, hcase⟩ := syscallHandler_not_started mem inUse hstart
    rw [he] at hk'
    cases hk'
    rcases hcase with rfl | rfl
    · exact absurd hbad hexit
    · exact ⟨rfl, rfl⟩

/-- A process with one page, page 1, and its stack pointer there. -/
def onePageProc : Proc where
  rights pg := if pg = 1 then .writable else .unmapped
  fdTable := []
  esp := 4096

end Pintos.Userprog
