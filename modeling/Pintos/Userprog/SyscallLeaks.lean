/-
  Pintos.Userprog.SyscallLeaks

  The kernel memory that a system call allocates for itself: the page of
  `copy_in_string` and the bounce buffer of `read_from_fd` and `write_to_fd`.

  A fault on user memory ends the process inside `page_fault`, and nobody gives
  back what the call has allocated.

  Result:
  - a call from which the process is killed leaks nothing if and only if the
    string, the size argument of `SYS_CREATE` or the buffer that it accesses with
    such memory in hand is accessible
-/

import Pintos.Userprog.SyscallEnds

namespace Pintos.Userprog

open Pintos.Base

variable {p : Proc} {mem : Memory} {inUse : List Nat} {k : Kernel} {α : Type} {buf size : Nat}
  {fd : Int} {c : Nat}

/-! ## Calls that leak -/

/-- The process is killed, and `c` stays in use. -/
def Leaks (c : Nat) (inUse : List Nat) (e : Stop) (k : Kernel) : Prop :=
  e = .killed ∧ k.inUse = c :: inUse

/-- A string that cannot be read. -/
theorem withString_fault (hc : c ≠ 0) (hnew : c ∉ inUse) {ustr : Nat} {call : List UInt8 → Sys α}
    (hstr : stringAt p mem ustr = .fault) :
    Triple (At mem inUse) (withString (.constant c) p ustr call) (fun _ _ => False)
      (Leaks c inUse) := by
  refine Triple.bind (Q := fun _ _ => False) ?_ fun _ _ h => h.elim
  refine (copyInString_constant hc hnew).conseq (fun _ h => h) (fun r k h => ?_) fun _ _ h => h.2
  rw [hstr] at h
  exact h

theorem locked_ask_constant {E : Stop → Kernel → Prop} :
    Triple (Uses inUse) (locked (ask (.constant c))) (fun w k => w = c ∧ Uses inUse k) E := by
  intro k hk
  have hrun : locked (ask (.constant c)) k = .ok c { k with asked := k.asked + 1 } := by
    obtain ⟨mem, accesses, asked, held, inUse'⟩ := k
    cases hk.free
    rfl
  rw [hrun]
  exact ⟨rfl, hk.free, hk.inUse⟩

/-- The loop of `read_from_fd` goes on to the end of the buffer, or dies. -/
theorem readLoop_constant (hc : pgSize ≤ c) (rounds total : Nat) (hrounds : size ≤ total + rounds) :
    Triple (Uses inUse) (readLoop (.constant c) p buf size rounds total)
      (fun _ _ => ∀ i, total ≤ i → i < size → canWrite p (buf + i))
      (fun e k => e = .killed ∧ k.inUse = inUse) := by
  have hpg : pgSize = 4096 := rfl
  induction rounds generalizing total with
  | zero => exact Triple.pure fun _ _ i h₁ h₂ => by omega
  | succ rounds ih =>
    refine Triple.ite (fun hge => Triple.pure fun _ _ i h₁ h₂ => by omega) fun hlt => ?_
    refine Triple.bind locked_ask_constant fun answer => Triple.of_imp ?_
    intro hanswer
    -- the chunk is as large as it can be
    rw [hanswer]
    have hchunk : min c (min (size - total) pgSize) = min (size - total) pgSize := by omega
    show Triple _ (if min c (min (size - total) pgSize) = 0 then _ else _) _ _
    rw [hchunk, if_neg (by omega)]
    refine Triple.bind ((copyOut_spec _ _).conseq (fun _ h => h) (fun _ _ h => ⟨h.2, h.1⟩)
      fun _ _ h => ⟨h.killed, h.inUse⟩) fun _ => Triple.of_imp fun hwrite => ?_
    rw [if_neg (by omega)]
    refine (ih (total + min (size - total) pgSize) (by omega)).post fun _ _ hrest i hle hi => ?_
    by_cases hin : i < total + min (size - total) pgSize
    · have := hwrite (i - total) (by omega)
      rwa [Nat.add_assoc, Nat.add_sub_cancel' hle] at this
    · exact hrest i (by omega) hi

theorem writeLoop_constant (hc : pgSize ≤ c) (rounds total : Nat)
    (hrounds : size ≤ total + rounds) :
    Triple (Uses inUse) (writeLoop (.constant c) p buf size rounds total)
      (fun _ _ => ∀ i, total ≤ i → i < size → canRead p (buf + i))
      (fun e k => e = .killed ∧ k.inUse = inUse) := by
  have hpg : pgSize = 4096 := rfl
  induction rounds generalizing total with
  | zero => exact Triple.pure fun _ _ i h₁ h₂ => by omega
  | succ rounds ih =>
    refine Triple.ite (fun hge => Triple.pure fun _ _ i h₁ h₂ => by omega) fun hlt => ?_
    refine Triple.bind ((copyIn_spec _ _).conseq (fun _ h => h) (fun _ _ h => ⟨h.2, h.1⟩)
      fun _ _ h => ⟨h.killed, h.inUse⟩) fun _ => Triple.of_imp fun hread => ?_
    refine Triple.bind locked_ask_constant fun answer => Triple.of_imp ?_
    intro hanswer
    rw [hanswer]
    have hchunk : min c (min (size - total) pgSize) = min (size - total) pgSize := by omega
    show Triple _ (if min c (min (size - total) pgSize) = 0 then _ else _) _ _
    rw [hchunk, if_neg (by omega), if_neg (by omega)]
    refine (ih (total + min (size - total) pgSize) (by omega)).post fun _ _ hrest i hle hi => ?_
    by_cases hin : i < total + min (size - total) pgSize
    · have := hread (i - total) (by omega)
      rwa [Nat.add_assoc, Nat.add_sub_cancel' hle] at this
    · exact hrest i (by omega) hi

/-- The bounce buffer of a loop that does not end. -/
theorem bounce_constant (hc : c ≠ 0) (hnew : c ∉ inUse) {loop : Sys Nat}
    (hfile : ∃ entry, fdLookup p fd = some entry ∧ entry.isDir = false)
    (hloop : Triple (Uses (c :: inUse)) loop (fun _ _ => False) (Leaks c inUse)) :
    Triple (At mem inUse) (match fdLookup p fd with
      | none => return -1
      | some entry =>
        if entry.isDir then return -1
        else do
          match ← alloc (.constant c) with
          | none => exit
          | some bounce =>
            let total ← loop
            release bounce
            return total : Sys Int) (fun _ _ => False) (Leaks c inUse) := by
  obtain ⟨entry, hentry, hdir⟩ := hfile
  simp only [hentry, hdir]
  refine Triple.bind (alloc_constant hc hnew) fun r => Triple.of_imp ?_
  rintro rfl
  exact Triple.bind (hloop.pre fun _ h => h.uses) fun _ _ h => h.elim

theorem checkUserBufferWritable_constant :
    checkUserBufferWritable (.constant c) p buf size k = .ok (checkUserBuffer buf size) k := by
  have hall : ((List.range size).all fun i =>
      (Env.constant c).presence k.accesses ((buf + i) / pgSize) ≠ .resident ||
        p.rights ((buf + i) / pgSize) ≠ .readOnly) = true := by
    rw [List.all_eq_true]
    intro i _
    rfl
  have heq : checkUserBufferWritable (.constant c) p buf size k = .ok (checkUserBuffer buf size &&
      (List.range size).all fun i =>
        (Env.constant c).presence k.accesses ((buf + i) / pgSize) ≠ .resident ||
          p.rights ((buf + i) / pgSize) ≠ .readOnly) k := rfl
  rw [heq, hall, Bool.and_true]

theorem readFromFd_constant (hc : pgSize ≤ c) (hnew : c ∉ inUse)
    (huse : UsesBounce p fd 0 buf size) (hbuf : ¬ ∀ i < size, canWrite p (buf + i)) :
    Triple (At mem inUse) (readFromFd (.constant c) p fd buf size) (fun _ _ => False)
      (Leaks c inUse) := by
  have hne : c ≠ 0 := by
    have hpg : pgSize = 4096 := rfl
    omega
  rw [readFromFd, if_neg huse.nonempty]
  refine Triple.bind (Q := fun b k => b = true ∧ At mem inUse k) (fun k hk => ?_) fun b =>
    Triple.of_imp ?_
  · rw [checkUserBufferWritable_constant]
    exact ⟨huse.buffer, hk⟩
  · rintro rfl
    refine Triple.bind (Q := fun _ => At mem inUse) (fun k hk => hk) fun _ => ?_
    rw [if_neg huse.console]
    refine bounce_constant hne hnew huse.file ?_
    refine (readLoop_constant hc size 0 (by omega)).conseq (fun _ h => h) (fun _ _ h => ?_)
      fun _ _ h => h
    exact hbuf fun i hi => h i (Nat.zero_le i) hi

theorem writeToFd_constant (hc : pgSize ≤ c) (hnew : c ∉ inUse)
    (huse : UsesBounce p fd 1 buf size) (hbuf : ¬ ∀ i < size, canRead p (buf + i)) :
    Triple (At mem inUse) (writeToFd (.constant c) p fd buf size) (fun _ _ => False)
      (Leaks c inUse) := by
  have hne : c ≠ 0 := by
    have hpg : pgSize = 4096 := rfl
    omega
  rw [writeToFd, if_neg huse.nonempty, huse.buffer]
  refine Triple.bind (Q := fun _ => At mem inUse) (fun k hk => hk) fun _ => ?_
  rw [if_neg huse.console]
  refine bounce_constant hne hnew huse.file ?_
  refine (writeLoop_constant hc size 0 (by omega)).conseq (fun _ h => h) (fun _ _ h => ?_)
    fun _ _ h => h
  exact hbuf fun i hi => h i (Nat.zero_le i) hi

theorem dispatch_leaks (hc : pgSize ≤ c) (hnew : c ∉ inUse) {nr : SysNr} (h : ¬ LeakFree p mem nr) :
    Triple (At mem inUse) (dispatch (.constant c) p nr) (fun _ _ => False) (Leaks c inUse) := by
  have hne : c ≠ 0 := by
    have hpg : pgSize = 4096 := rfl
    omega
  cases nr with
  | exec | remove | «open» | chdir | mkdir =>
    simp only [LeakFree, ne_eq, Classical.not_imp, not_not] at h
    obtain ⟨hptr, hread, hstr⟩ := h
    exact arguments_constant hptr hread (withString_fault hne hnew hstr)
  | create =>
    simp only [LeakFree, Classical.not_imp] at h
    obtain ⟨hptr, hread, h⟩ := h
    refine arguments_constant hptr hread ?_
    by_cases hstr : stringAt p mem (wordAt mem (p.esp + 4)) = .fault
    · exact withString_fault hne hnew hstr
    · simp only [ne_eq, hstr, not_false_eq_true, true_and, not_forall] at h
      obtain ⟨s, hs, hsize⟩ := h
      refine withString_str hne hnew hs ?_
      refine Triple.bind (Q := fun _ _ => False) ?_ fun _ _ h => h.elim
      exact (argument_spec 2).conseq (fun _ h => h) (fun _ _ h => hsize h.2.2)
        fun _ _ h => ⟨h.killed, h.inUse⟩
  | read =>
    simp only [LeakFree, Classical.not_imp] at h
    obtain ⟨hptr, h₁, h₂, h₃, huse, hbuf⟩ := h
    exact arguments_constant hptr h₁ (argument_then_constant h₂ (argument_then_constant h₃
      (readFromFd_constant hc hnew huse hbuf)))
  | write =>
    simp only [LeakFree, Classical.not_imp] at h
    obtain ⟨hptr, h₁, h₂, h₃, huse, hbuf⟩ := h
    exact arguments_constant hptr h₁ (argument_then_constant h₂ (argument_then_constant h₃
      (writeToFd_constant hc hnew huse hbuf)))
  | _ => exact absurd trivial h

/-! ## The result -/

/-- A process that is killed in a system call leaves the kernel pages and blocks
    in use that were in use before, if and only if what the call accesses with
    memory of its own in hand is accessible.  Pages that are mapped can be
    loaded. -/
theorem killed_call_leaks_nothing (p : Proc) (mem : Memory) (inUse : List Nat) :
    (∀ env, ¬ LoadsFail env → ∀ k',
      syscallHandler env p (.enter mem inUse) = .error .killed k' → k'.inUse = inUse) ↔
    ∀ nr, Calls p mem nr → LeakFree p mem nr := by
  constructor
  · intro h nr hnr
    by_contra hleak
    -- an address that is not in use and larger than a page
    let c := inUse.sum + pgSize
    have hnew : c ∉ inUse := by
      intro hmem
      have hle : c ≤ inUse.sum := List.le_sum_of_mem hmem
      have hpg : pgSize = 4096 := rfl
      omega
    have hres := dispatch_leaks (Nat.le_add_left _ _) hnew hleak _ (At.enter.tick 4)
    split at hres
    · exact hres
    · rename_i e k' herr
      obtain ⟨rfl, hk'⟩ := hres
      have := h (.constant c) not_loadsFail_constant k'
        ((syscallHandler_constant hnr inUse).trans herr)
      rw [hk'] at this
      exact List.cons_ne_self _ _ this
  · intro h env hloads k' hk'
    refine (syscallHandler_ends (· = .killed) nofun (fun nr hnr => ?_) hk' rfl).2
    exact ⟨nofun, nofun, fun _ => nofun, fun _ _ => nofun, fun _ => ⟨hloads, h nr hnr⟩⟩

/-- `remove (8192)`: the number of the call and its argument on the stack. -/
def removeMemory : Memory := fun a => if a = 4096 then 5 else if a = 4101 then 32 else 0

/-- The string is not mapped; the page that `copy_in_string` has got for it stays
    in use. -/
theorem killed_remove_leaks : ∃ k',
    syscallHandler (.constant 1) onePageProc (.enter removeMemory []) = .error .killed k' ∧
      k'.inUse = [1] :=
  ⟨_, rfl, rfl⟩

end Pintos.Userprog
