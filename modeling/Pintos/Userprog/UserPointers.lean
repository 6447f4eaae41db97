/-
  Pintos.Userprog.UserPointers

  What the checks of user pointers accept: `check_user_buffer` (syscall.c) and
  `copy_in_string` (userptr.c).

  Result:
  - a buffer is accepted if and only if it is empty, or not at a null pointer and
    below `PHYS_BASE`; a string that can be read is copied if and only if its null
    byte is among the first `PGSIZE` bytes and below `PHYS_BASE`, given a page for it
-/

import Pintos.Userprog.SyscallCopies

namespace Pintos.Userprog

open Pintos.Base

variable {env : Env} {p : Proc} {mem : Memory} {k : Kernel} {n ustr : Nat} {s : List UInt8}

/-- The loop of `check_user_buffer`, with pointers of the machine, which wrap
    around. -/
def checkUserBytes : Nat → BitVec 32 → Bool
  | 0, _ => true
  | size + 1, ptr =>
    if ptr = 0#32 || !isUserVaddr ptr.toNat then false else checkUserBytes size (ptr + 1)

/-- By induction on the bytes that are left: below `PHYS_BASE` a pointer does not
    wrap around. -/
theorem checkUserBytes_iff (size : Nat) (b : BitVec 32) :
    checkUserBytes size b = true ↔ size = 0 ∨ b ≠ 0#32 ∧ b.toNat + size ≤ physBase := by
  induction size generalizing b with
  | zero => simp [checkUserBytes]
  | succ size ih =>
    have hzero : b ≠ 0#32 ↔ b.toNat ≠ 0 := by
      rw [Ne, ← BitVec.toNat_inj]
      rfl
    rw [checkUserBytes]
    by_cases hfirst : b.toNat ≠ 0 ∧ b.toNat < physBase
    · have hnext : (b + 1).toNat = b.toNat + 1 := by
        have : b.toNat < 3221225472 := hfirst.2
        rw [BitVec.toNat_add]
        exact Nat.mod_eq_of_lt (by change b.toNat + 1 < 4294967296; omega)
      have hnext' : b + 1 ≠ 0#32 := by
        rw [Ne, ← BitVec.toNat_inj, hnext]
        exact Nat.succ_ne_zero _
      rw [if_neg (by simp [isUserVaddr, hzero.mpr hfirst.1, hfirst.2]), ih, hnext, hzero,
        and_iff_right hnext', and_iff_right hfirst.1]
      have := hfirst.2
      omega
    · rw [if_pos]
      · rw [hzero]
        constructor
        · exact fun h => absurd h Bool.false_ne_true
        · omega
      · rw [Bool.or_eq_true, decide_eq_true_eq, Bool.not_eq_true', isUserVaddr,
          decide_eq_false_iff_not, ← not_not (a := b = 0#32), ← Ne, hzero]
        omega

/-- So the loop may be modelled without them. -/
theorem checkUserBytes_eq (size : Nat) (b : BitVec 32) :
    checkUserBytes size b = checkUserBuffer b.toNat size := by
  rw [Bool.eq_iff_iff, checkUserBytes_iff, Ne, ← BitVec.toNat_inj]
  simp only [checkUserBuffer, isUserVaddr, List.all_eq_true, List.mem_range, Bool.and_eq_true,
    decide_eq_true_eq, BitVec.toNat_ofNat, Nat.zero_mod]
  constructor
  · intro h i hi
    omega
  · intro h
    rcases size with _ | size
    · exact Or.inl rfl
    · have hfirst := h 0 (Nat.succ_pos _)
      have hlast := h size (Nat.lt_succ_self _)
      omega

/-- The string `s` is at `ustr`, with its null byte among the first `n` bytes and
    below `PHYS_BASE`. -/
structure HoldsString (mem : Memory) (n ustr : Nat) (s : List UInt8) : Prop where
  length : s.length < n
  user : ustr + s.length < physBase
  bytes : ∀ i < s.length, s[i]? = some (mem (ustr + i)) ∧ mem (ustr + i) ≠ 0
  null : mem (ustr + s.length) = 0

/-- The bytes of a string can be read, as far as a copy of `n` bytes goes. -/
def Readable (p : Proc) (mem : Memory) (n ustr : Nat) : Prop :=
  ∀ i < n, ustr + i < physBase → (∀ j < i, mem (ustr + j) ≠ 0) → canRead p (ustr + i)

theorem HoldsString.cons (h : HoldsString mem n (ustr + 1) s) (hne : mem ustr ≠ 0) :
    HoldsString mem (n + 1) ustr (mem ustr :: s) := by
  have hshift : ∀ i, ustr + (i + 1) = ustr + 1 + i := fun i => by omega
  refine ⟨Nat.succ_lt_succ h.length, ?_, fun i hi => ?_, ?_⟩
  · rw [List.length_cons, hshift]
    exact h.user
  · rcases i with _ | i
    · exact ⟨rfl, hne⟩
    · rw [hshift, List.getElem?_cons_succ]
      exact h.bytes i (Nat.lt_of_succ_lt_succ hi)
  · rw [List.length_cons, hshift]
    exact h.null

theorem HoldsString.tail (h : HoldsString mem (n + 1) ustr s) (hne : mem ustr ≠ 0) :
    HoldsString mem n (ustr + 1) s.tail := by
  have hshift : ∀ i, ustr + (i + 1) = ustr + 1 + i := fun i => by omega
  obtain ⟨hlength, huser, hbytes, hnull⟩ := h
  rcases s with _ | ⟨x, s⟩
  · exact absurd hnull hne
  · rw [List.length_cons] at hlength huser hbytes hnull
    refine ⟨Nat.lt_of_succ_lt_succ hlength, ?_, fun i hi => ?_, ?_⟩
    · rw [← hshift]
      exact huser
    · have := hbytes (i + 1) (Nat.succ_lt_succ hi)
      rwa [hshift, List.getElem?_cons_succ] at this
    · rw [← hshift]
      exact hnull

/-- By induction on the bytes that are left of the page. -/
theorem walk_eq (copied : List UInt8) (hread : Readable p mem n ustr) :
    (∃ s, HoldsString mem n ustr s ∧ walk p mem n ustr copied = .str (copied ++ s)) ∨
      (∀ s, ¬ HoldsString mem n ustr s) ∧ walk p mem n ustr copied = .null := by
  induction n generalizing ustr copied with
  | zero => exact Or.inr ⟨fun s h => absurd h.length s.length.not_lt_zero, rfl⟩
  | succ n ih =>
    rw [walk]
    by_cases huser : ustr < physBase
    case neg =>
      rw [if_pos (by simpa [isUserVaddr] using huser)]
      exact Or.inr ⟨fun s h => huser (Nat.lt_of_le_of_lt (Nat.le_add_right ..) h.user), rfl⟩
    case pos =>
      have hcan : canRead p ustr := hread 0 (Nat.succ_pos n) huser fun j hj => absurd hj j.not_lt_zero
      rw [if_neg (by simpa [isUserVaddr] using huser), if_neg hcan]
      by_cases hzero : mem ustr = 0
      · rw [if_pos hzero]
        exact Or.inl ⟨[], ⟨Nat.succ_pos n, huser, by simp, hzero⟩, by rw [List.append_nil]⟩
      · rw [if_neg hzero]
        have hrest : Readable p mem n (ustr + 1) := by
          intro i hi hlt hbefore
          rw [Nat.add_right_comm, Nat.add_assoc] at hlt ⊢
          refine hread (i + 1) (Nat.succ_lt_succ hi) hlt fun j hj => ?_
          rcases j with _ | j
          · exact hzero
          · rw [← Nat.add_assoc, Nat.add_right_comm]
            exact hbefore j (Nat.lt_of_succ_lt_succ hj)
        rcases ih (copied ++ [mem ustr]) hrest with ⟨s, hs, hwalk⟩ | ⟨hno, hwalk⟩
        · exact Or.inl ⟨mem ustr :: s, hs.cons hzero, by rw [hwalk, List.append_assoc]; rfl⟩
        · exact Or.inr ⟨fun s hs => hno s.tail (hs.tail hzero), hwalk⟩

/-- Buffers and strings of the user are checked exactly, where there is a page for
    the copy of a string. -/
theorem user_pointers_checked (hnull : ustr ≠ 0) (hread : Readable p k.mem pgSize ustr)
    (hloads : ¬ LoadsFail env) (hfree : k.lockHeld = false)
    (hpage : env.answer k.asked ≠ 0 ∧ env.answer k.asked ∉ k.inUse) (b : BitVec 32) (size : Nat) :
    (checkUserBytes size b = true ↔ size = 0 ∨ b ≠ 0#32 ∧ b.toNat + size ≤ physBase) ∧
    ∃ r k', copyInString env p ustr k = .ok r k' ∧
      ((∃ s, HoldsString k.mem pgSize ustr s ∧ r = some (env.answer k.asked, s) ∧
          k'.inUse = env.answer k.asked :: k.inUse) ∨
        (∀ s, ¬ HoldsString k.mem pgSize ustr s) ∧ r = none ∧ k'.inUse = k.inUse) := by
  refine ⟨checkUserBytes_iff size b, ?_⟩
  have halloc : alloc env k = .ok (some (env.answer k.asked))
      { k with asked := k.asked + 1, inUse := env.answer k.asked :: k.inUse } := by
    rw [alloc_eq, if_neg (not_or.mpr hpage)]
  rw [copyInString, if_neg hnull, bind_ok halloc]
  have hloop := @copyLoop_spec env p k.mem k.inUse (env.answer k.asked) pgSize ustr []
    { k with asked := k.asked + 1, inUse := env.answer k.asked :: k.inUse } ⟨rfl, hfree, rfl⟩
  have hwalk := walk_eq [] hread
  split at hloop
  case h_1 r k' hok =>
    refine ⟨r, k', hok, ?_⟩
    rcases hwalk with ⟨s, hs, hw⟩ | ⟨hno, hw⟩
    · rw [hw] at hloop
      exact Or.inl ⟨s, hs, hloop.1, hloop.2.inUse⟩
    · rw [hw] at hloop
      exact Or.inr ⟨hno, hloop.1, hloop.2.inUse⟩
  case h_2 e k' herr =>
    -- the copy only dies from a page that cannot be read or loaded
    refine absurd (hloop.cause ?_) hloads
    rcases hwalk with ⟨s, -, hw⟩ | ⟨-, hw⟩ <;> rw [hw] <;> exact Walk.noConfusion

/-- A process with one page, which holds the string `a`. -/
def stringProc : Proc := ⟨fun _ => .readOnly, [], 0⟩

def stringMemory : Memory := fun a => if a = 4096 then 97 else 0

theorem user_pointers_checked_one : ∃ r k',
    copyInString (.constant 8) stringProc 4096 (.enter stringMemory []) = .ok r k' ∧
      r = some (8, [97]) := by
  obtain ⟨-, r, k', hrun, -⟩ := @user_pointers_checked (.constant 8) stringProc
    (.enter stringMemory []) 4096 (by decide) (fun _ _ _ _ => by simp [canRead, stringProc])
    not_loadsFail_constant rfl (by decide) 0 0
  refine ⟨r, k', hrun, ?_⟩
  have hvalue : copyInString (.constant 8) stringProc 4096 (.enter stringMemory []) =
      .ok (some (8, [97])) _ := rfl
  rw [hvalue] at hrun
  cases hrun
  rfl

/-- Without a page for the copy the string is not accepted. -/
theorem string_rejected : (∃ s, HoldsString stringMemory pgSize 4096 s) ∧
    ∃ k', copyInString (.constant 0) stringProc 4096 (.enter stringMemory []) = .ok none k' :=
  ⟨⟨[97], by decide, by decide, by decide, by decide⟩, _, rfl⟩

end Pintos.Userprog
