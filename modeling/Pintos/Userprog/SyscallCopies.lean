/-
  Pintos.Userprog.SyscallCopies

  What the calls read of user memory and copy to it: argument words, strings and
  buffers.  Each program has one specification, which says what it returns and
  from which accesses the process may die.  `LoadsFail` is the case of a page that
  is mapped but cannot be loaded.
-/

import Pintos.Userprog.SyscallFaults

namespace Pintos.Userprog

open Pintos.Base

variable {a : Nat} {E : Stop → Kernel → Prop}

def LoadsFail (env : Env) : Prop := ∃ n, env.loadFails n = true

def canRead (p : Proc) (a : Nat) : Prop := p.rights (a / pgSize) ≠ .unmapped

def canWrite (p : Proc) (a : Nat) : Prop := p.rights (a / pgSize) = .writable

/-- The four bytes of a word can be read. -/
def canReadWord (p : Proc) (a : Nat) : Prop := ∀ i < 4, canRead p (a + i)

/-- The kernel between two accesses: the memory, and the pages and blocks in use. -/
structure At (mem : Memory) (inUse : List Nat) (k : Kernel) : Prop where
  mem : k.mem = mem
  free : k.lockHeld = false
  inUse : k.inUse = inUse

/-- The same without the memory. -/
structure Uses (inUse : List Nat) (k : Kernel) : Prop where
  free : k.lockHeld = false
  inUse : k.inUse = inUse

/-- The process is killed with these pages and blocks in use, by an access that
    is not permitted or by a page that cannot be loaded. -/
structure Dies (env : Env) (permitted : Prop) (inUse : List Nat) (e : Stop) (k : Kernel) : Prop where
  killed : e = .killed
  inUse : k.inUse = inUse
  cause : permitted → LoadsFail env

variable {env : Env} {p : Proc} {mem : Memory} {inUse : List Nat} {k : Kernel}

theorem At.uses (h : At mem inUse k) : Uses inUse k := ⟨h.free, h.inUse⟩

theorem At.enter : At mem inUse (Kernel.enter mem inUse) := ⟨rfl, rfl, rfl⟩

theorem At.tick (h : At mem inUse k) (n : Nat) : At mem inUse (k.tick n) := ⟨h.mem, h.free, h.inUse⟩

theorem Dies.mono {c c' : Prop} {e : Stop} (h : Dies env c inUse e k) (hc : c' → c) :
    Dies env c' inUse e k :=
  ⟨h.killed, h.inUse, fun hc' => h.cause (hc hc')⟩

/-! ## Accesses -/

theorem canRead_of_not_fatal {n : Nat} {write : Bool} (h : fatal env p n write a = false) :
    canRead p a := by
  simp only [fatal, Bool.or_eq_false_iff] at h
  simpa [canRead] using h.1.1

theorem canWrite_of_not_fatal {n : Nat} (h : fatal env p n true a = false) : canWrite p a := by
  simp only [fatal, Bool.or_eq_false_iff, Bool.true_and] at h
  simpa [canWrite] using h.2

theorem loadsFail_of_fatal {n : Nat} {write : Bool} (h : fatal env p n write a = true)
    (hread : canRead p a) (hwrite : write = true → canWrite p a) : LoadsFail env := by
  simp only [fatal, Bool.or_eq_true, Bool.and_eq_true] at h
  rcases h with (h | h) | h
  · exact absurd (eq_of_beq h) hread
  · exact ⟨n, h.2⟩
  · have := hwrite h.1
    rw [canWrite] at this
    simp [this] at h

/-- An access that is permitted does not end the process. -/
theorem not_fatal (hloads : ¬LoadsFail env) {n : Nat} {write : Bool} (hread : canRead p a)
    (hwrite : write = true → canWrite p a) : fatal env p n write a = false := by
  rw [← Bool.not_eq_true]
  exact fun h => hloads (loadsFail_of_fatal h hread hwrite)

theorem canWrite.canRead (h : canWrite p a) : canRead p a := by
  rw [canWrite] at h
  rw [Userprog.canRead, h]
  nofun

theorem loadByte_spec (a : Nat) :
    Triple (At mem inUse) (loadByte env p a)
      (fun b k => At mem inUse k ∧ b = mem a ∧ canRead p a) (Dies env (canRead p a) inUse) := by
  intro k hk
  cases hfatal : fatal env p k.accesses false a with
  | true =>
    rw [loadByte_killed hk.free hfatal]
    exact ⟨rfl, hk.inUse, fun hread => loadsFail_of_fatal hfatal hread nofun⟩
  | false =>
    rw [loadByte_ok hk.free hfatal]
    exact ⟨hk.tick 1, by rw [hk.mem], canRead_of_not_fatal hfatal⟩

theorem loadByte_uses (a : Nat) :
    Triple (Uses inUse) (loadByte env p a)
      (fun _ k => Uses inUse k ∧ canRead p a) (Dies env (canRead p a) inUse) := by
  intro k hk
  have hat : At k.mem inUse k := ⟨rfl, hk.free, hk.inUse⟩
  have h := @loadByte_spec env p k.mem inUse a k hat
  split at h
  · exact ⟨h.1.uses, h.2.2⟩
  · exact h

theorem storeByte_uses (a : Nat) (b : UInt8) :
    Triple (Uses inUse) (storeByte env p a b)
      (fun _ k => Uses inUse k ∧ canWrite p a) (Dies env (canWrite p a) inUse) := by
  intro k hk
  cases hfatal : fatal env p k.accesses true a with
  | true =>
    have herr : storeByte env p a b k = .error .killed (k.tick 1) :=
      bind_error ((access_free hk.free _ _).trans (if_pos hfatal))
    rw [herr]
    exact ⟨rfl, hk.inUse, fun hw => loadsFail_of_fatal hfatal hw.canRead fun _ => hw⟩
  | false =>
    have hok : storeByte env p a b k = .ok () { k.tick 1 with mem := Function.update k.mem a b } :=
      (bind_ok ((access_free hk.free _ _).trans (if_neg (by rw [hfatal]; decide)))).trans rfl
    rw [hok]
    exact ⟨⟨hk.free, hk.inUse⟩, canWrite_of_not_fatal hfatal⟩

/-- An argument is read if it can be. -/
theorem argument_spec (i : Nat) :
    Triple (At mem inUse) (argument env p i)
      (fun w k => At mem inUse k ∧ w = wordAt mem (p.esp + 4 * i) ∧ canReadWord p (p.esp + 4 * i))
      (Dies env (canReadWord p (p.esp + 4 * i)) inUse) := by
  intro k hk
  cases hfatal : fatalWord env p k.accesses (p.esp + 4 * i) with
  | true =>
    obtain ⟨n, hn⟩ := loadWord_killed hk.free hfatal
    rw [argument, hn]
    refine ⟨rfl, hk.inUse, fun hread => ?_⟩
    obtain ⟨j, hj, hfatal⟩ := List.any_eq_true.mp hfatal
    exact loadsFail_of_fatal hfatal (hread j (List.mem_range.mp hj)) nofun
  | false =>
    rw [argument, loadWord_ok hk.free hfatal]
    refine ⟨hk.tick 4, by rw [hk.mem], fun j hj => ?_⟩
    have := List.any_eq_false.mp hfatal j (List.mem_range.mpr hj)
    exact canRead_of_not_fatal (by simpa using this)

/-- A byte and the rest of a copy; `can` says what is permitted. -/
theorem copy_then {α : Type} {can : Nat → Prop} {a size : Nat} {byte : Sys α} {rest : Sys Unit}
    (hbyte : Triple (Uses inUse) byte (fun _ k => Uses inUse k ∧ can a) (Dies env (can a) inUse))
    (hrest : Triple (Uses inUse) rest (fun _ k => Uses inUse k ∧ ∀ i < size, can (a + 1 + i))
      (Dies env (∀ i < size, can (a + 1 + i)) inUse)) :
    Triple (Uses inUse) (do let _ ← byte; rest)
      (fun _ k => Uses inUse k ∧ ∀ i < size + 1, can (a + i))
      (Dies env (∀ i < size + 1, can (a + i)) inUse) := by
  -- byte `i + 1` of the whole copy is byte `i` of the rest
  have hshift : ∀ i, a + 1 + i = a + (i + 1) := fun i => by omega
  refine Triple.bind (hbyte.conseq (fun _ h => h) (fun _ _ h => ⟨h.2, h.1⟩)
    fun _ _ h => h.mono fun hall => hall 0 (Nat.succ_pos _)) fun _ => Triple.of_imp fun hfirst => ?_
  refine hrest.conseq (fun _ h => h) (fun _ k hk => ⟨hk.1, fun i hi => ?_⟩) fun _ _ h =>
    h.mono fun hall i hi => ?_
  · rcases i with _ | i
    · exact hfirst
    · rw [← hshift]
      exact hk.2 i (by omega)
  · rw [hshift]
    exact hall (i + 1) (by omega)

theorem copyIn_spec (a size : Nat) :
    Triple (Uses inUse) (copyIn env p a size)
      (fun _ k => Uses inUse k ∧ ∀ i < size, canRead p (a + i))
      (Dies env (∀ i < size, canRead p (a + i)) inUse) := by
  induction size generalizing a with
  | zero => exact Triple.pure fun k hk => ⟨hk, nofun⟩
  | succ size ih => exact copy_then (loadByte_uses a) (ih (a + 1))

theorem copyOut_spec (a size : Nat) :
    Triple (Uses inUse) (copyOut env p a size)
      (fun _ k => Uses inUse k ∧ ∀ i < size, canWrite p (a + i))
      (Dies env (∀ i < size, canWrite p (a + i)) inUse) := by
  induction size generalizing a with
  | zero => exact Triple.pure fun k hk => ⟨hk, nofun⟩
  | succ size ih =>
    exact Triple.bind (Q := fun _ => Uses inUse) (fun _ h => h) fun k₀ =>
      copy_then (storeByte_uses a _) (ih (a + 1))

/-! ## Strings -/

/-- What `copy_in_string` finds at an address. -/
inductive Walk where
  | str (s : List UInt8)
  | null
  | fault

/-- The walk over the bytes of a string, at most `n` of them. -/
def walk (p : Proc) (mem : Memory) : Nat → Nat → List UInt8 → Walk
  | 0, _, _ => .null
  | n + 1, ustr, copied =>
    if !isUserVaddr ustr then .null
    else if p.rights (ustr / pgSize) = .unmapped then .fault
    else if mem ustr = 0 then .str copied
    else walk p mem n (ustr + 1) (copied ++ [mem ustr])

def stringAt (p : Proc) (mem : Memory) (ustr : Nat) : Walk :=
  if ustr = 0 then .null else walk p mem pgSize ustr []

/-- What `copyLoop` leaves behind for each outcome of the walk. -/
def Copied (mem : Memory) (inUse : List Nat) (kpage : Nat) (r : Option (Nat × List UInt8))
    (k : Kernel) : Walk → Prop
  | .str s => r = some (kpage, s) ∧ At mem (kpage :: inUse) k
  | .null => r = none ∧ At mem inUse k
  | .fault => False

theorem release_spec (a : Nat) :
    Triple (At mem (a :: inUse)) (release a) (fun _ => At mem inUse) E :=
  fun k hk => ⟨hk.mem, hk.free, by
    show k.inUse.erase a = inUse
    rw [hk.inUse, List.erase_cons_head]⟩

theorem copyLoop_spec (kpage n ustr : Nat) (copied : List UInt8) :
    Triple (At mem (kpage :: inUse)) (copyLoop env p kpage n ustr copied)
      (fun r k => Copied mem inUse kpage r k (walk p mem n ustr copied))
      (Dies env (walk p mem n ustr copied ≠ .fault) (kpage :: inUse)) := by
  have hnull : ∀ {E : Stop → Kernel → Prop}, Triple (At mem (kpage :: inUse))
      (do release kpage; return none : Sys (Option (Nat × List UInt8)))
      (fun r k => r = none ∧ At mem inUse k) E :=
    Triple.bind (release_spec kpage) fun _ => Triple.pure fun k hk => ⟨rfl, hk⟩
  induction n generalizing ustr copied with
  | zero => exact hnull
  | succ n ih =>
    rw [copyLoop, walk]
    refine Triple.ite (fun huser => ?_) fun huser => ?_
    · rw [if_pos huser]
      exact hnull
    · rw [if_neg huser]
      by_cases hun : p.rights (ustr / pgSize) = .unmapped
      · rw [if_pos hun]
        refine Triple.bind ((loadByte_spec ustr).conseq (fun _ h => h) (fun _ _ h => h)
          fun _ _ h => h.mono fun hne => absurd rfl hne) fun c k hk => ?_
        exact absurd hun hk.2.2
      · rw [if_neg hun]
        refine Triple.bind ((loadByte_spec ustr).conseq (fun _ h => h) (fun _ _ h => h)
          fun _ _ h => h.mono fun _ => hun) fun c => ?_
        refine Triple.pre (P := fun k => c = mem ustr ∧ At mem (kpage :: inUse) k)
          (Triple.of_imp ?_) fun k hk => ⟨hk.2.1, hk.1⟩
        rintro rfl
        refine Triple.ite (fun hzero => ?_) fun hzero => ?_
        · rw [if_pos hzero]
          exact Triple.pure fun k hk => ⟨rfl, hk⟩
        · rw [if_neg hzero]
          exact ih _ _

theorem alloc_spec : Triple (At mem inUse) (alloc env)
    (fun r k => (r = none ∧ At mem inUse k) ∨ ∃ a, r = some a ∧ At mem (a :: inUse) k) E := by
  intro k hk
  rw [alloc_eq]
  by_cases h : env.answer k.asked = 0 ∨ env.answer k.asked ∈ k.inUse
  · rw [if_pos h]
    exact Or.inl ⟨rfl, hk.mem, hk.free, hk.inUse⟩
  · rw [if_neg h]
    exact Or.inr ⟨_, rfl, hk.mem, hk.free, by rw [hk.inUse]⟩

/-- A string that is returned is the one in user memory. -/
theorem copyInString_spec (ustr : Nat) :
    Triple (At mem inUse) (copyInString env p ustr)
      (fun r k => r = none ∧ At mem inUse k ∨
        ∃ kpage s, r = some (kpage, s) ∧ stringAt p mem ustr = .str s ∧ At mem (kpage :: inUse) k)
      (fun e _ => e = .killed ∧ (stringAt p mem ustr ≠ .fault → LoadsFail env)) := by
  refine Triple.ite (fun _ => Triple.pure fun _ hk => Or.inl ⟨rfl, hk⟩) fun hne => ?_
  have hwalk : stringAt p mem ustr = walk p mem pgSize ustr [] := if_neg hne
  refine Triple.bind alloc_spec fun r => ?_
  cases r with
  | none =>
    refine Triple.pure fun k hk => Or.inl ?_
    rcases hk with hk | ⟨a, h, -⟩
    · exact ⟨rfl, hk.2⟩
    · cases h
  | some kpage =>
    refine (@copyLoop_spec env p mem inUse kpage pgSize ustr []).conseq ?_ ?_ ?_
    · rintro k (⟨h, -⟩ | ⟨a, h, hk⟩)
      · cases h
      · cases h
        exact hk
    · intro r k h
      rw [← hwalk] at h
      cases hs : stringAt p mem ustr with
      | str s =>
        rw [hs] at h
        exact Or.inr ⟨kpage, s, h.1, rfl, h.2⟩
      | null =>
        rw [hs] at h
        exact Or.inl h
      | fault =>
        rw [hs] at h
        exact h.elim
    · intro e k h
      rw [hwalk]
      exact ⟨h.killed, h.cause⟩

/-! ## The start of a call, and an environment that always answers the same -/

/-- The call that the process makes. -/
structure Calls (p : Proc) (mem : Memory) (nr : SysNr) : Prop where
  esp : checkUserBuffer p.esp 4 = true
  number : canReadWord p p.esp
  nr : SysNr.decode (wordAt mem p.esp) = some nr

/-- A call whose number is read. -/
theorem Started.number (h : Started env p) : canReadWord p p.esp := by
  intro i hi
  have := List.any_eq_false.mp h.2 i (List.mem_range.mpr hi)
  exact canRead_of_not_fatal (by simpa using this)

/-- An argument, and what the call goes on with. -/
theorem argument_then {α : Type} {i : Nat} {q : Nat → Sys α} {Q : α → Kernel → Prop}
    (hdies : ∀ e k, Dies env (canReadWord p (p.esp + 4 * i)) inUse e k → E e k)
    (hq : canReadWord p (p.esp + 4 * i) →
      Triple (At mem inUse) (q (wordAt mem (p.esp + 4 * i))) Q E) :
    Triple (At mem inUse) (do q (← argument env p i)) Q E := by
  refine Triple.bind ((argument_spec i).conseq (fun _ h => h) (fun _ _ h => ⟨h.2, h.1⟩) hdies)
    fun w => Triple.of_imp ?_
  rintro ⟨rfl, hread⟩
  exact hq hread

/-- An environment in which every page has to be loaded and can be, and every
    kernel function returns `c`. -/
def Env.constant (c : Nat) : Env where
  presence _ _ := .inSwap
  evicts _ := false
  loadFails _ := false
  answer _ := c
  input _ := 0
  dirEntry := none

section Constant

variable {α : Type} {c : Nat}

theorem not_loadsFail_constant : ¬ LoadsFail (.constant c) := fun ⟨_, h⟩ => nomatch h

/-- An access that kills is one that is not permitted. -/
theorem Dies.absurd_constant {P : Prop} {inUse' : List Nat} {e : Stop} {R : Prop}
    (h : Dies (.constant c) P inUse' e k) (hP : P) : R :=
  absurd (h.cause hP) not_loadsFail_constant

/-- The call starts, and its number is read. -/
theorem syscallHandler_constant {nr : SysNr} (hnr : Calls p mem nr) (inUse : List Nat) :
    syscallHandler (.constant c) p (.enter mem inUse) =
      dispatch (.constant c) p nr ((Kernel.enter mem inUse).tick 4) := by
  have hword : fatalWord (.constant c) p 0 p.esp = false :=
    List.any_eq_false.mpr fun i hi => Bool.not_eq_true _ ▸
      not_fatal not_loadsFail_constant (hnr.number i (List.mem_range.mp hi)) nofun
  rw [syscallHandler_started mem inUse ⟨hnr.esp, hword⟩, hnr.nr]

theorem argument_then_constant {i : Nat} (hread : canReadWord p (p.esp + 4 * i)) {q : Nat → Sys α}
    {Q : α → Kernel → Prop} (hq : Triple (At mem inUse) (q (wordAt mem (p.esp + 4 * i))) Q E) :
    Triple (At mem inUse) (do q (← argument (.constant c) p i)) Q E :=
  argument_then (fun _ _ h => h.absurd_constant hread) fun _ => hq

theorem arguments_constant {count i : Nat} (hptr : checkUserBuffer (p.esp + 4) (4 * count) = true)
    (hread : canReadWord p (p.esp + 4 * i)) {q : Nat → Sys α}
    {Q : α → Kernel → Prop} (hq : Triple (At mem inUse) (q (wordAt mem (p.esp + 4 * i))) Q E) :
    Triple (At mem inUse) (do validatePointers p count; q (← argument (.constant c) p i)) Q E := by
  refine Triple.bind (Q := fun _ => At mem inUse) (fun k hk => ?_) fun _ =>
    argument_then_constant hread hq
  rw [validatePointers_ok hptr]
  exact hk

theorem alloc_constant (hc : c ≠ 0) (hnew : c ∉ inUse) :
    Triple (At mem inUse) (alloc (.constant c)) (fun r k => r = some c ∧ At mem (c :: inUse) k) E := by
  intro k hk
  have hne : ¬((Env.constant c).answer k.asked = 0 ∨ (Env.constant c).answer k.asked ∈ k.inUse) := by
    rw [hk.inUse, not_or]
    exact ⟨hc, hnew⟩
  rw [alloc_eq, if_neg hne]
  exact ⟨rfl, hk.mem, hk.free, by rw [hk.inUse]; rfl⟩

/-- `copy_in_string`, for each outcome of the walk. -/
theorem copyInString_constant (hc : c ≠ 0) (hnew : c ∉ inUse) {ustr : Nat} :
    Triple (At mem inUse) (copyInString (.constant c) p ustr)
      (fun r k => Copied mem inUse c r k (stringAt p mem ustr))
      (fun e k => stringAt p mem ustr = .fault ∧ e = .killed ∧ k.inUse = c :: inUse) := by
  rw [copyInString, stringAt]
  refine Triple.ite (fun hnull => ?_) fun hne => ?_
  · rw [if_pos hnull]
    exact Triple.pure fun k hk => ⟨rfl, hk⟩
  · rw [if_neg hne]
    refine Triple.bind (alloc_constant hc hnew) fun r => Triple.of_imp ?_
    rintro rfl
    refine (copyLoop_spec c pgSize ustr []).conseq (fun _ h => h) (fun _ _ h => h) fun e k h => ?_
    refine ⟨?_, h.killed, h.inUse⟩
    by_contra hfault
    exact h.absurd_constant hfault

/-- A string that can be read: the call runs with the page in hand. -/
theorem withString_str (hc : c ≠ 0) (hnew : c ∉ inUse) {ustr : Nat} {call : List UInt8 → Sys α}
    {s : List UInt8} (hstr : stringAt p mem ustr = .str s)
    (hcall : Triple (At mem (c :: inUse)) (call s) (fun _ _ => False) E) :
    Triple (At mem inUse) (withString (.constant c) p ustr call) (fun _ _ => False) E := by
  refine Triple.bind (Q := fun r k => r = some (c, s) ∧ At mem (c :: inUse) k) ?_ fun r =>
    Triple.of_imp ?_
  · refine (copyInString_constant hc hnew).conseq (fun _ h => h) (fun r k h => ?_) fun _ _ h => ?_
    · rw [hstr] at h
      exact h
    · rw [hstr] at h
      cases h.1
  · rintro rfl
    exact Triple.bind hcall fun _ _ h => h.elim

end Constant

end Pintos.Userprog
