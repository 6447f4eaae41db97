/-
  Pintos.Userprog.SyscallAsserts

  The assertions of the functions that system calls pass their arguments to:
  `file_length`, `file_seek`, `file_tell`, `inode_create` and `init_thread`.

  Result:
  - no call fails one of them if and only if the command line of `SYS_EXEC` has a
    character other than a space among its first 15, the size of `SYS_CREATE` and
    the position of `SYS_SEEK` are not negative as an `int`, and the descriptor of
    `SYS_FILESIZE`, `SYS_SEEK`, `SYS_TELL` and `SYS_MMAP` is not a directory
-/

import Pintos.Userprog.SyscallEnds

namespace Pintos.Userprog

open Pintos.Base

variable {env : Env} {p : Proc} {mem : Memory} {inUse : List Nat} {k : Kernel} {α : Type} {c : Nat}

/-- The call has failed an assertion about its arguments. -/
def Panics (e : Stop) : Prop := ∃ a : Assertion, a.ofArguments = true ∧ e = .panic a

/-! ## Calls that fail one -/

/-- The program fails an assertion about its arguments. -/
abbrev Fails (mem : Memory) (inUse : List Nat) (q : Sys α) : Prop :=
  Triple (At mem inUse) q (fun _ _ => False) fun e _ => Panics e

theorem assert_fails {b : Bool} {a : Assertion} (hb : b = false) (ha : a.ofArguments = true)
    {P : Kernel → Prop} {Q : Unit → Kernel → Prop} :
    Triple P (assert b a) Q fun e _ => Panics e := by
  rw [hb]
  exact Triple.throw fun _ _ => ⟨a, ha, rfl⟩

theorem locked_fails {q : Sys α} (hq : Triple (fun _ => True) q (fun _ _ => False) fun e _ => Panics e) :
    Fails mem inUse (locked q) := by
  refine Triple.bind (Q := fun _ _ => True) (fun k hk => ?_) fun _ =>
    Triple.bind hq fun _ _ h => h.elim
  rw [filesysLockAcquire_free hk.free]
  trivial

/-- `ask`, when every answer is `c`. -/
theorem ask_constant {E : Stop → Kernel → Prop} :
    Triple (fun _ => True) (ask (.constant c)) (fun w _ => w = c ∧ True) E :=
  fun _ _ => ⟨rfl, trivial⟩

theorem allAllocated_constant (hc : c ≠ 0) (n : Nat) {E : Stop → Kernel → Prop} :
    Triple (fun _ => True) (allAllocated (.constant c) n) (fun b _ => b = true ∧ True) E := by
  induction n with
  | zero => exact Triple.pure fun _ _ => ⟨rfl, trivial⟩
  | succ n ih =>
    refine Triple.bind ask_constant fun w => Triple.of_imp ?_
    intro hw
    rw [hw, if_neg hc]
    exact ih

theorem processExecute_fails (hc : c ≠ 0) {s : List UInt8} (hs : (threadName s).isSome = false) :
    Fails mem inUse (processExecute (.constant c) s) := by
  refine Triple.bind ((allAllocated_constant hc 4).pre fun _ _ => trivial) fun b => Triple.of_imp ?_
  rintro rfl
  exact Triple.bind (Q := fun _ _ => False) (assert_fails hs rfl) fun _ _ h => h.elim

theorem filesysCreate_fails (hc : c ≠ 0) {path : List UInt8} {size : Int}
    (hres : mayResolve path = true) (hneg : ¬0 ≤ size) :
    Triple (fun _ => True) (filesysCreate (.constant c) path size) (fun _ _ => False)
      fun e _ => Panics e := by
  rw [filesysCreate, if_neg (by rw [hres]; decide)]
  refine Triple.bind ask_constant fun w => Triple.of_imp fun hw => ?_
  rw [hw, if_neg hc]
  refine Triple.bind ask_constant fun w => Triple.of_imp fun hw => ?_
  rw [hw, if_neg hc]
  exact Triple.bind (Q := fun _ _ => False) (assert_fails (decide_eq_false hneg) rfl)
    fun _ _ h => h.elim

theorem withFd_fails {fd : Int} {found : FdEntry → Sys Int} {entry : FdEntry}
    (hentry : fdLookup p fd = some entry)
    (hfound : Triple (fun _ => True) (found entry) (fun _ _ => False) fun e _ => Panics e) :
    Fails mem inUse (withFd p fd found) := by
  rw [withFd, hentry]
  exact locked_fails hfound

theorem fileLength_fails {entry : FdEntry} (hdir : entry.isDir = true) :
    Triple (fun _ => True) (fileLength env entry) (fun _ _ => False) fun e _ => Panics e :=
  Triple.bind (Q := fun _ _ => False) (assert_fails (by rw [hdir]; rfl) rfl) fun _ _ h => h.elim

theorem fileSeek_fails {entry : FdEntry} {pos : Int} (h : entry.isDir = true ∨ ¬0 ≤ pos) :
    Triple (fun _ => True) (fileSeek entry pos) (fun _ _ => False) fun e _ => Panics e := by
  cases hdir : entry.isDir with
  | true =>
    exact Triple.bind (Q := fun _ _ => False) (assert_fails (by rw [hdir]; rfl) rfl)
      fun _ _ h => h.elim
  | false =>
    have hneg : ¬0 ≤ pos := h.resolve_left (by rw [hdir]; decide)
    refine Triple.bind (Q := fun _ _ => True) ?_ fun _ =>
      assert_fails (decide_eq_false hneg) rfl
    rw [hdir]
    exact Triple.pure fun _ _ => trivial

theorem not_noDirectory (h : ¬ NoDirectory p mem) : ∃ entry,
    fdLookup p (toInt32 (wordAt mem (p.esp + 4))) = some entry ∧ entry.isDir = true := by
  simpa [NoDirectory] using h

theorem dispatch_fails (hc : c ≠ 0) (hnew : c ∉ inUse) {nr : SysNr} (h : ¬ AssertsHold p mem nr) :
    Fails mem inUse (dispatch (.constant c) p nr) := by
  cases nr with
  | exec =>
    simp only [AssertsHold, Classical.not_imp, not_forall] at h
    obtain ⟨hptr, hread, s, hs, hname⟩ := h
    rw [← threadName_isSome, Bool.not_eq_true] at hname
    exact arguments_constant hptr hread (withString_str hc hnew hs (processExecute_fails hc hname))
  | create =>
    simp only [AssertsHold, Classical.not_imp, not_forall] at h
    obtain ⟨hptr, hread, hsize, s, hs, hres, hneg⟩ := h
    refine arguments_constant hptr hread (withString_str hc hnew hs ?_)
    exact argument_then_constant hsize (locked_fails (filesysCreate_fails hc hres hneg))
  | filesize | tell =>
    simp only [AssertsHold, Classical.not_imp] at h
    obtain ⟨hptr, hread, hdir⟩ := h
    obtain ⟨entry, hentry, hdir⟩ := not_noDirectory hdir
    exact arguments_constant hptr hread (withFd_fails hentry (fileLength_fails hdir))
  | seek =>
    simp only [AssertsHold, Classical.not_imp] at h
    obtain ⟨hptr, h₁, h₂, h⟩ := h
    refine arguments_constant hptr h₁ (argument_then_constant h₂ ?_)
    by_cases hno : NoDirectory p mem
    · obtain ⟨hsome, hneg⟩ : (fdLookup p (toInt32 (wordAt mem (p.esp + 4)))).isSome = true ∧
          ¬0 ≤ toInt32 (wordAt mem (p.esp + 8)) := by
        simpa only [hno, true_and, Classical.not_imp] using h
      obtain ⟨entry, hentry⟩ := Option.isSome_iff_exists.mp hsome
      exact withFd_fails hentry (Triple.bind (fileSeek_fails (Or.inr hneg)) fun _ _ h => h.elim)
    · obtain ⟨entry, hentry, hdir⟩ := not_noDirectory hno
      exact withFd_fails hentry (Triple.bind (fileSeek_fails (Or.inl hdir)) fun _ _ h => h.elim)
  | mmap =>
    simp only [AssertsHold, Classical.not_imp, not_or] at h
    obtain ⟨hptr, h₁, h₂, hfd, haddr, hofs, hno⟩ := h
    obtain ⟨entry, hentry, hdir⟩ := not_noDirectory hno
    refine arguments_constant hptr h₁ (argument_then_constant h₂ ?_)
    have hargs : ¬(toInt32 (wordAt mem (p.esp + 4 * 1)) ≤ 1 ∨ wordAt mem (p.esp + 4 * 2) = 0 ∨
        wordAt mem (p.esp + 4 * 2) % pgSize ≠ 0) := by
      rw [not_or, not_or]
      exact ⟨hfd, haddr, hofs⟩
    rw [mmapFile, if_neg hargs, hentry]
    exact Triple.bind (locked_fails (fileLength_fails hdir)) fun _ _ h => h.elim
  | _ => exact absurd trivial h

/-! ## The result -/

/-- No call fails an assertion of the functions that it passes its arguments to,
    in any environment, if and only if the arguments satisfy them. -/
theorem syscalls_fail_no_assertion (p : Proc) (mem : Memory) (inUse : List Nat) :
    (∀ env k' a, a.ofArguments = true →
      syscallHandler env p (.enter mem inUse) ≠ .error (.panic a) k') ↔
    ∀ nr, Calls p mem nr → AssertsHold p mem nr := by
  constructor
  · intro h nr hnr
    by_contra hfail
    -- an address that is not in use
    let c := inUse.sum + 1
    have hnew : c ∉ inUse := by
      intro hmem
      have hle : c ≤ inUse.sum := List.le_sum_of_mem hmem
      omega
    have hres := dispatch_fails (Nat.succ_ne_zero _) hnew hfail _ (At.enter.tick 4)
    split at hres
    · exact hres
    · rename_i e k' herr
      obtain ⟨a, ha, rfl⟩ := hres
      exact h (.constant c) k' a ha ((syscallHandler_constant hnr inUse).trans herr)
  · intro h env k' a ha hk'
    have hkilled : ¬Panics .killed := nofun
    have hlock : ¬Panics (.panic .lockAcquire) := by
      rintro ⟨a, ha, heq⟩
      cases heq
      cases ha
    have hends := syscallHandler_ends Panics nofun (fun nr hnr => ⟨nofun, nofun,
      fun _ => hlock, fun _ _ _ => h nr hnr, fun hbad => absurd hbad hkilled⟩) hk' ⟨a, ha, rfl⟩
    cases hends.1

/-- `exec ("")`: the number of the call and its argument 4200, where there is a
    null byte. -/
def execMemory : Memory := fun a =>
  if a = 4096 then 2 else if a = 4100 then 104 else if a = 4101 then 16 else 0

/-- The empty command line has no name for the thread. -/
theorem exec_blank_panics : ∃ k',
    syscallHandler (.constant 1) onePageProc (.enter execMemory []) = .error (.panic .name) k' :=
  ⟨_, rfl⟩

end Pintos.Userprog
