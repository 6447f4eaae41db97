/-
  Pintos.Userprog.SyscallFaults

  What an access to user memory does, and the file-system lock in the fault
  handler: `page_fault`, `swap_evict_frame` and `process_exit` take the lock, and
  `lock_acquire` asserts that the running thread does not hold it.

  `Respects` is for the programs that keep a property of the lock and do not stop
  for certain reasons.
-/

import Pintos.Userprog.Syscall

namespace Pintos.Userprog

open Pintos.Base Function

variable {env : Env} {p : Proc} {k : Kernel} {α : Type} {c : Bool} {stmt : Sys Unit} {a : Nat}

/-- Access `n` ends the process. -/
def fatal (env : Env) (p : Proc) (n : Nat) (write : Bool) (a : Nat) : Bool :=
  p.rights (a / pgSize) == .unmapped ||
    (env.presence n (a / pgSize) != .resident && env.loadFails n) ||
    (write && p.rights (a / pgSize) != .writable)

/-- Access `n` takes the lock, to load a page or to end the process. -/
def takesLock (env : Env) (p : Proc) (n : Nat) (write : Bool) (a : Nat) : Bool :=
  fatal env p n write a ||
    (env.presence n (a / pgSize) != .resident &&
      (env.evicts n || env.presence n (a / pgSize) == .inFile))

/-- The kernel after an access. -/
def Kernel.tick (k : Kernel) (n : Nat) : Kernel := { k with accesses := k.accesses + n }

/-! ## The lock -/

theorem filesysLockAcquire_free (h : k.lockHeld = false) :
    filesysLockAcquire k = .ok () { k with lockHeld := true } := by
  obtain ⟨mem, accesses, asked, held, inUse⟩ := k
  cases h
  rfl

theorem filesysLockAcquire_held (h : k.lockHeld = true) :
    filesysLockAcquire k = .error (.panic .lockAcquire) k := by
  obtain ⟨mem, accesses, asked, held, inUse⟩ := k
  cases h
  rfl

theorem filesysLockRelease_held (h : k.lockHeld = true) :
    filesysLockRelease k = .ok () { k with lockHeld := false } := by
  obtain ⟨mem, accesses, asked, held, inUse⟩ := k
  cases h
  rfl

/-- A pair of the two, which leaves no trace. -/
theorem lock_unlock_free (h : k.lockHeld = false) :
    (do filesysLockAcquire; filesysLockRelease : Sys Unit) k = .ok () k := by
  obtain ⟨mem, accesses, asked, held, inUse⟩ := k
  cases h
  rfl

theorem lock_unlock_held (h : k.lockHeld = true) :
    (do filesysLockAcquire; filesysLockRelease : Sys Unit) k =
      .error (.panic .lockAcquire) k :=
  bind_error (filesysLockAcquire_held h)

theorem kill_free (h : k.lockHeld = false) : (kill : Sys α) k = .error .killed k :=
  bind_ok (lock_unlock_free h)

theorem kill_held (h : k.lockHeld = true) : (kill : Sys α) k = .error (.panic .lockAcquire) k :=
  bind_error (lock_unlock_held h)

theorem exit_free (h : k.lockHeld = false) : (exit : Sys α) k = .error .exited k :=
  bind_ok (lock_unlock_free h)

/-! ## Accesses -/

theorem when_true (h : c = true) : when c stmt = stmt := by
  rw [h]
  rfl

theorem when_false (h : c = false) : when c stmt k = .ok () k := by
  rw [h]
  rfl

/-- A pair of the two in a branch. -/
theorem when_lock_free (h : k.lockHeld = false) (c : Bool) :
    when c (do filesysLockAcquire; filesysLockRelease) k = .ok () k := by
  cases c
  · rfl
  · exact lock_unlock_free h

theorem when_kill_free (h : k.lockHeld = false) (c : Bool) :
    when c kill k = if c then .error .killed k else .ok () k := by
  cases c
  · rfl
  · exact kill_free h

theorem when_kill_held (h : k.lockHeld = true) (c : Bool) :
    when c kill k = if c then .error (.panic .lockAcquire) k else .ok () k := by
  cases c
  · rfl
  · exact kill_held h

theorem loadPage_free (h : k.lockHeld = false) (n pg : Nat) :
    loadPage env n pg k = if env.loadFails n then .error .killed k else .ok () k := by
  rw [loadPage, bind_ok (when_lock_free h _), bind_ok (when_lock_free h _), when_kill_free h]

theorem loadPage_held (h : k.lockHeld = true) (n pg : Nat) :
    loadPage env n pg k =
      if env.evicts n || env.presence n pg == .inFile || env.loadFails n then
        .error (.panic .lockAcquire) k
      else .ok () k := by
  rw [loadPage]
  cases hev : env.evicts n with
  | true => rw [when_true rfl, bind_error (lock_unlock_held h), Bool.true_or, Bool.true_or, if_pos rfl]
  | false =>
    rw [bind_ok (when_false rfl), Bool.false_or]
    cases hfile : env.presence n pg == .inFile with
    | true => rw [when_true rfl, bind_error (lock_unlock_held h), Bool.true_or, if_pos rfl]
    | false => rw [bind_ok (when_false rfl), Bool.false_or, when_kill_held h]

/-- The three tests of an access. -/
theorem access_eq (write : Bool) (a : Nat) :
    access env p write a k = (do
      when (p.rights (a / pgSize) == .unmapped) kill
      when (env.presence k.accesses (a / pgSize) != .resident)
        (loadPage env k.accesses (a / pgSize))
      when (write && p.rights (a / pgSize) != .writable) kill : Sys Unit) (k.tick 1) := rfl

theorem access_free (h : k.lockHeld = false) (write : Bool) (a : Nat) :
    access env p write a k =
      if fatal env p k.accesses write a then .error .killed (k.tick 1) else .ok () (k.tick 1) := by
  have h' : (k.tick 1).lockHeld = false := h
  rw [access_eq, fatal]
  cases hun : p.rights (a / pgSize) == .unmapped with
  | true => rw [when_true rfl, bind_error (kill_free h'), Bool.true_or, Bool.true_or, if_pos rfl]
  | false =>
    rw [bind_ok (when_false rfl), Bool.false_or]
    cases hload : env.presence k.accesses (a / pgSize) != .resident with
    | false => rw [bind_ok (when_false rfl), Bool.false_and, Bool.false_or, when_kill_free h']
    | true =>
      rw [when_true rfl, Bool.true_and]
      cases hfail : env.loadFails k.accesses with
      | true =>
        rw [bind_error ((loadPage_free h' _ _).trans (if_pos hfail)), Bool.true_or, if_pos rfl]
      | false =>
        rw [bind_ok ((loadPage_free h' _ _).trans (if_neg (by rw [hfail]; decide))),
          Bool.false_or, when_kill_free h']

theorem access_held (h : k.lockHeld = true) (write : Bool) (a : Nat) :
    access env p write a k =
      if takesLock env p k.accesses write a then .error (.panic .lockAcquire) (k.tick 1)
      else .ok () (k.tick 1) := by
  have h' : (k.tick 1).lockHeld = true := h
  rw [access_eq, takesLock, fatal]
  cases hun : p.rights (a / pgSize) == .unmapped with
  | true => rw [when_true rfl, bind_error (kill_held h'), Bool.true_or, Bool.true_or, Bool.true_or, if_pos rfl]
  | false =>
    rw [bind_ok (when_false rfl), Bool.false_or]
    cases hload : env.presence k.accesses (a / pgSize) != .resident with
    | false =>
      rw [bind_ok (when_false rfl), Bool.false_and, Bool.false_or, Bool.false_and,
        Bool.or_false, when_kill_held h']
    | true =>
      rw [when_true rfl, Bool.true_and, Bool.true_and]
      cases hlock : env.evicts k.accesses || env.presence k.accesses (a / pgSize) == .inFile ||
          env.loadFails k.accesses with
      | true =>
        rw [bind_error ((loadPage_held h' _ _).trans (if_pos hlock)), if_pos]
        simp only [Bool.or_eq_true] at hlock ⊢
        tauto
      | false =>
        rw [bind_ok ((loadPage_held h' _ _).trans (if_neg (by rw [hlock]; decide))),
          when_kill_held h']
        simp only [Bool.or_eq_false_iff] at hlock
        rw [hlock.2, hlock.1.1, hlock.1.2, Bool.false_or, Bool.or_false, Bool.or_false]

/-! ## Bytes and words -/

@[simp] theorem tick_tick (m n : Nat) : (k.tick m).tick n = k.tick (m + n) := by
  simp only [Kernel.tick, Nat.add_assoc]

theorem loadByte_ok (h : k.lockHeld = false) (ha : fatal env p k.accesses false a = false) :
    loadByte env p a k = .ok (k.mem a) (k.tick 1) := by
  rw [loadByte, bind_ok ((access_free h _ _).trans (if_neg (by rw [ha]; decide)))]
  rfl

theorem loadByte_killed (h : k.lockHeld = false) (ha : fatal env p k.accesses false a = true) :
    loadByte env p a k = .error .killed (k.tick 1) := by
  rw [loadByte, bind_error ((access_free h _ _).trans (if_pos ha))]

/-- The word that `loadWord` reads. -/
def wordAt (mem : Memory) (a : Nat) : Nat :=
  (mem a).toNat + 256 * (mem (a + 1)).toNat + 256 ^ 2 * (mem (a + 2)).toNat +
    256 ^ 3 * (mem (a + 3)).toNat

/-- A byte of the word at `a` that is read from access `n` on ends the process. -/
def fatalWord (env : Env) (p : Proc) (n a : Nat) : Bool :=
  (List.range 4).any fun i => fatal env p (n + i) false (a + i)

theorem fatalWord_eq (n a : Nat) : fatalWord env p n a =
    (fatal env p n false a || fatal env p (n + 1) false (a + 1) ||
      fatal env p (n + 2) false (a + 2) || fatal env p (n + 3) false (a + 3)) := by
  simp [fatalWord, List.range_succ, Bool.or_assoc]

theorem loadWord_ok (h : k.lockHeld = false) (ha : fatalWord env p k.accesses a = false) :
    loadWord env p a k = .ok (wordAt k.mem a) (k.tick 4) := by
  simp only [fatalWord_eq, Bool.or_eq_false_iff] at ha
  obtain ⟨⟨⟨h₀, h₁⟩, h₂⟩, h₃⟩ := ha
  have e₁ : loadByte env p (a + 1) (k.tick 1) = .ok (k.mem (a + 1)) (k.tick 2) :=
    (loadByte_ok (k := k.tick 1) h h₁).trans (by rw [tick_tick]; rfl)
  have e₂ : loadByte env p (a + 2) (k.tick 2) = .ok (k.mem (a + 2)) (k.tick 3) :=
    (loadByte_ok (k := k.tick 2) h h₂).trans (by rw [tick_tick]; rfl)
  have e₃ : loadByte env p (a + 3) (k.tick 3) = .ok (k.mem (a + 3)) (k.tick 4) :=
    (loadByte_ok (k := k.tick 3) h h₃).trans (by rw [tick_tick]; rfl)
  rw [loadWord, bind_ok (loadByte_ok h h₀), bind_ok e₁, bind_ok e₂, bind_ok e₃]
  rfl

theorem loadWord_killed (h : k.lockHeld = false) (ha : fatalWord env p k.accesses a = true) :
    ∃ n, loadWord env p a k = .error .killed (k.tick n) := by
  rw [fatalWord_eq] at ha
  rw [loadWord]
  cases h₀ : fatal env p k.accesses false a with
  | true => exact ⟨1, bind_error (loadByte_killed h h₀)⟩
  | false =>
    rw [bind_ok (loadByte_ok h h₀)]
    cases h₁ : fatal env p (k.accesses + 1) false (a + 1) with
    | true =>
      refine ⟨2, (bind_error (loadByte_killed (k := k.tick 1) h h₁)).trans ?_⟩
      rw [tick_tick]
    | false =>
      rw [bind_ok (loadByte_ok (k := k.tick 1) h h₁), tick_tick]
      cases h₂ : fatal env p (k.accesses + 2) false (a + 2) with
      | true =>
        refine ⟨3, (bind_error (loadByte_killed (k := k.tick 2) h h₂)).trans ?_⟩
        rw [tick_tick]
      | false =>
        rw [bind_ok (loadByte_ok (k := k.tick 2) h h₂), tick_tick]
        rw [h₀, h₁, h₂, Bool.false_or, Bool.false_or, Bool.false_or] at ha
        refine ⟨4, (bind_error (loadByte_killed (k := k.tick 3) h ha)).trans ?_⟩
        rw [tick_tick]

theorem exit_when (h : k.lockHeld = false) (hc : c = true) :
    when c exit k = .error .exited k := by
  rw [when_true hc]
  exact exit_free h

theorem alloc_eq : alloc env k =
    if env.answer k.asked = 0 ∨ env.answer k.asked ∈ k.inUse then
      .ok none { k with asked := k.asked + 1 }
    else
      .ok (some (env.answer k.asked))
        { k with asked := k.asked + 1, inUse := env.answer k.asked :: k.inUse } := by
  show (if _ then _ else _ : Sys (Option Nat)) _ = _
  split <;> rfl

/-! ## Programs that respect a property of the lock -/

/-- The program keeps `I` and does not stop for a `bad` reason. -/
def Respects (I : Kernel → Prop) (bad : Stop → Prop) (q : Sys α) : Prop :=
  Triple I q (fun _ => I) fun e _ => ¬bad e

/-- The property is about the lock only. -/
class OfLock (I : Kernel → Prop) : Prop where
  congr : ∀ {k k' : Kernel}, I k → k'.lockHeld = k.lockHeld → I k'

instance {held : Bool} : OfLock fun k => k.lockHeld = held := ⟨fun hk h => h.trans hk⟩

/-- Neither the lock nor `exit` is to blame where `I` holds; under the lock `J` does. -/
structure Ambient (I J : Kernel → Prop) (bad : Stop → Prop) : Prop where
  exit : ∀ {α : Type}, Respects I bad (exit : Sys α)
  locked : ∀ {α : Type} {q : Sys α}, Respects J bad q → Respects I bad (locked q)

/-- The lock and `exit`, called without the lock. -/
theorem ambient {bad : Stop → Prop} (hexit : ¬bad .exited) :
    Ambient (fun k => k.lockHeld = false) (fun k => k.lockHeld = true) bad where
  exit := by
    intro α k hk
    rw [exit_free hk]
    exact hexit
  locked := by
    intro α call hcall
    have hacq : Triple (fun k => k.lockHeld = false) filesysLockAcquire
        (fun _ k => k.lockHeld = true) fun e _ => ¬bad e := by
      intro k hk
      rw [filesysLockAcquire_free hk]
    have hrel : Triple (fun k => k.lockHeld = true) filesysLockRelease
        (fun _ k => k.lockHeld = false) fun e _ => ¬bad e := by
      intro k hk
      rw [filesysLockRelease_held hk]
    exact Triple.bind hacq fun _ => Triple.bind hcall fun _ => Triple.bind hrel fun _ =>
      Triple.pure fun _ h => h

namespace Respects

variable {I J : Kernel → Prop} {bad : Stop → Prop} {β : Type} {q : Sys α} {f : α → Sys β}

theorem pure (a : α) : Respects I bad (Pure.pure a : Sys α) := Triple.pure fun _ h => h

theorem throw {e : Stop} (h : ¬bad e) : Respects I bad (MonadExcept.throw e : Sys α) :=
  Triple.throw fun _ _ => h

theorem bind (hq : Respects I bad q) (hf : ∀ a, Respects I bad (f a)) : Respects I bad (q >>= f) :=
  Triple.bind hq hf

theorem ite {c : Prop} [Decidable c] {q' : Sys α} (hq : Respects I bad q)
    (hq' : Respects I bad q') : Respects I bad (if c then q else q') :=
  Triple.ite (fun _ => hq) fun _ => hq'

theorem «when» (h : c = true → Respects I bad stmt) :
    Respects I bad (when c stmt) := by
  cases c
  · exact pure ()
  · exact h rfl

theorem get : Respects I bad (get : Sys Kernel) := fun _ h => h

theorem assert {b : Bool} {a : Assertion} (h : b = false → ¬bad (.panic a)) :
    Respects I bad (assert b a) :=
  Respects.when fun hb => throw (h (by simpa using hb))

theorem fileSeek {entry : FdEntry} {pos : Int} (h : entry.isDir = true → ¬bad (.panic .file))
    (hpos : ¬0 ≤ pos → ¬bad (.panic .newPos)) : Respects I bad (fileSeek entry pos) :=
  bind (assert fun hdir => h (by simpa using hdir)) fun _ =>
    assert fun hneg => hpos (by simpa using hneg)

theorem withFd (h : Ambient I J bad) {fd : Int} {found : FdEntry → Sys Int}
    (hfound : ∀ e, fdLookup p fd = some e → Respects J bad (found e)) :
    Respects I bad (withFd p fd found) := by
  rw [Userprog.withFd]
  split
  · exact pure _
  · exact h.locked (hfound _ ‹_›)

/-- An access without the lock goes on, or ends the process. -/
theorem access {write : Bool} (h : bad .killed → ∀ n, fatal env p n write a = false) :
    Respects (fun k => k.lockHeld = false) bad (access env p write a) := by
  intro k hk
  rw [access_free hk]
  cases hfatal : fatal env p k.accesses write a with
  | true =>
    intro hbad
    rw [h hbad] at hfatal
    cases hfatal
  | false => exact hk

theorem copyIn {size : Nat} (h : ∀ i < size, Respects I bad (Userprog.access env p false (a + i))) :
    Respects I bad (copyIn env p a size) := by
  induction size generalizing a with
  | zero => exact pure ()
  | succ size ih =>
    have hbyte : Respects I bad (Userprog.loadByte env p a) :=
      bind (h 0 (Nat.succ_pos _)) fun _ => bind get fun _ => pure _
    refine bind hbyte fun _ => ih fun i hi => ?_
    rw [Nat.add_right_comm, Nat.add_assoc]
    exact h (i + 1) (Nat.succ_lt_succ hi)

variable [OfLock I]

theorem ask : Respects I bad (ask env) := fun _ h => OfLock.congr h rfl

theorem release (a : Nat) : Respects I bad (release a) := fun _ h => OfLock.congr h rfl

theorem alloc : Respects I bad (alloc env) := by
  intro k hk
  rw [alloc_eq]
  by_cases h : env.answer k.asked = 0 ∨ env.answer k.asked ∈ k.inUse
  · rw [if_pos h]
    exact OfLock.congr hk rfl
  · rw [if_neg h]
    exact OfLock.congr hk rfl

theorem allAllocated (n : Nat) : Respects I bad (allAllocated env n) := by
  induction n with
  | zero => exact pure true
  | succ n ih => exact bind ask fun _ => ite (pure false) ih

theorem processExecute {cmdLine : List UInt8}
    (h : (threadName cmdLine).isSome = false → ¬bad (.panic .name)) :
    Respects I bad (processExecute env cmdLine) :=
  bind (allAllocated 4) fun _ => ite (pure _) (bind (assert h) fun _ => bind ask fun _ => pure _)

theorem filesysCreate {path : List UInt8} {size : Int}
    (h : mayResolve path = true → ¬0 ≤ size → ¬bad (.panic .length)) :
    Respects I bad (filesysCreate env path size) := by
  refine Triple.ite (fun _ => pure _) fun hres => ?_
  have hassert : Respects I bad (Userprog.assert (0 ≤ size) .length) :=
    assert fun hneg => h (by simpa using hres) (by simpa using hneg)
  exact bind ask fun _ => ite (pure _) (bind ask fun _ => ite (pure _)
    (bind hassert fun _ => bind ask fun _ => pure _))

/-- `file_length` and `file_tell`. -/
theorem fileLength {entry : FdEntry} (h : entry.isDir = true → ¬bad (.panic .file)) :
    Respects I bad (fileLength env entry) :=
  bind (assert fun hdir => h (by simpa using hdir)) fun _ => bind ask fun _ => pure _

theorem copyOut {size : Nat} (h : ∀ i < size, Respects I bad (Userprog.access env p true (a + i))) :
    Respects I bad (copyOut env p a size) := by
  induction size generalizing a with
  | zero => exact pure ()
  | succ size ih =>
    have hbyte : ∀ b, Respects I bad (storeByte env p a b) := fun _ =>
      bind (h 0 (Nat.succ_pos _)) fun _ _ hk => OfLock.congr hk rfl
    refine bind get fun k => bind (hbyte _) fun _ => ih fun i hi => ?_
    rw [Nat.add_right_comm, Nat.add_assoc]
    exact h (i + 1) (Nat.succ_lt_succ hi)

/-- The end of `read_from_fd` and `write_to_fd`: a loop with a bounce buffer. -/
theorem bounce (h : Ambient I J bad) {loop : Sys Nat} {fd : Int}
    (hloop : (∃ entry, fdLookup p fd = some entry ∧ entry.isDir = false) → Respects I bad loop) :
    Respects I bad (match fdLookup p fd with
      | none => return -1
      | some entry =>
        if entry.isDir then return -1
        else do
          match ← Userprog.alloc env with
          | none => Userprog.exit
          | some bounce =>
            let total ← loop
            Userprog.release bounce
            return total : Sys Int) := by
  split
  · exact pure _
  · rename_i entry hentry
    refine Triple.ite (fun _ => pure _) fun hdir => bind alloc fun r => ?_
    cases r with
    | none => exact h.exit
    | some bounce =>
      exact bind (hloop ⟨entry, hentry, by simpa using hdir⟩) fun _ =>
        bind (release bounce) fun _ => pure _

variable [OfLock J]

theorem mmapFile (h : Ambient I J bad) {fd : Int} {addr : Nat}
    (hfile : ¬(fd ≤ 1 ∨ addr = 0 ∨ addr % pgSize ≠ 0) → ∀ e, fdLookup p fd = some e →
      e.isDir = true → ¬bad (.panic .file)) :
    Respects I bad (mmapFile env p fd addr) := by
  refine Triple.ite (fun _ => pure _) fun hargs => ?_
  split
  · exact pure _
  · refine bind (h.locked (fileLength (hfile hargs _ ‹_›))) fun _ => ite (pure _) ?_
    exact bind (h.locked (bind ask fun _ => pure _)) fun _ => bind ask fun _ => pure _

/-- The loop of `read_from_fd`, for a buffer whose accesses do no harm. -/
theorem readLoop (h : Ambient I J bad) {buf size : Nat}
    (hbuf : ∀ i < size, Respects I bad (Userprog.access env p true (buf + i)))
    (rounds total : Nat) : Respects I bad (readLoop env p buf size rounds total) := by
  induction rounds generalizing total with
  | zero => exact pure total
  | succ rounds ih =>
    refine Triple.ite (fun _ => pure total) fun hlt => ?_
    refine bind (h.locked ask) fun answer => ite (pure total) ?_
    refine bind (copyOut fun i hi => ?_) fun _ => ite (pure _) (ih _)
    rw [Nat.add_assoc]
    exact hbuf (total + i) (by omega)

omit [OfLock I] in
theorem writeLoop (h : Ambient I J bad) {buf size : Nat}
    (hbuf : ∀ i < size, Respects I bad (Userprog.access env p false (buf + i)))
    (rounds total : Nat) : Respects I bad (writeLoop env p buf size rounds total) := by
  induction rounds generalizing total with
  | zero => exact pure total
  | succ rounds ih =>
    refine Triple.ite (fun _ => pure total) fun hlt => ?_
    refine bind (copyIn fun i hi => ?_) fun _ => bind (h.locked ask) fun answer =>
      ite (pure total) (ite (pure _) (ih _))
    rw [Nat.add_assoc]
    exact hbuf (total + i) (by omega)

end Respects

/-! ## The start of a call -/

/-- The number of the call is read. -/
def Started (env : Env) (p : Proc) : Prop :=
  checkUserBuffer p.esp 4 = true ∧ fatalWord env p 0 p.esp = false

variable {mem : Memory} {inUse : List Nat}

/-- A call whose number cannot be read ends the process. -/
theorem syscallHandler_not_started (mem : Memory) (inUse : List Nat) (h : ¬ Started env p) :
    ∃ e n, syscallHandler env p (.enter mem inUse) = .error e ((Kernel.enter mem inUse).tick n) ∧
      (e = .exited ∨ e = .killed) := by
  have hfree : (Kernel.enter mem inUse).lockHeld = false := rfl
  rw [syscallHandler]
  cases hcheck : checkUserBuffer p.esp 4 with
  | false => exact ⟨.exited, 0, bind_error (exit_when hfree rfl), Or.inl rfl⟩
  | true =>
    have hword : fatalWord env p 0 p.esp = true := by
      by_contra hword
      exact h ⟨hcheck, by simpa using hword⟩
    obtain ⟨n, hn⟩ := loadWord_killed hfree hword
    rw [Bool.not_true, bind_ok (when_false rfl)]
    exact ⟨.killed, n, bind_error hn, Or.inr rfl⟩

theorem syscallHandler_started (mem : Memory) (inUse : List Nat) (h : Started env p) :
    syscallHandler env p (.enter mem inUse) =
      (match SysNr.decode (wordAt mem p.esp) with
        | none => return 0
        | some nr => dispatch env p nr : Sys Int) ((Kernel.enter mem inUse).tick 4) := by
  have hfree : (Kernel.enter mem inUse).lockHeld = false := rfl
  have hcheck : (!checkUserBuffer p.esp 4) = false := by rw [h.1]; rfl
  rw [syscallHandler, bind_ok (when_false hcheck)]
  exact bind_ok (loadWord_ok hfree h.2)

/-- The arguments of a call pass the check, or the process exits. -/
theorem validatePointers_ok {count : Nat} (h : checkUserBuffer (p.esp + 4) (4 * count) = true) :
    validatePointers p count k = .ok () k :=
  when_false (by rw [h]; rfl)

theorem validatePointers_exited (hfree : k.lockHeld = false) {count : Nat}
    (h : checkUserBuffer (p.esp + 4) (4 * count) = false) :
    validatePointers p count k = .error .exited k :=
  exit_when hfree (by rw [h]; rfl)

/-! ## Stores under the lock -/

/-- Under the lock, a store gets through if and only if it does not take the
    lock. -/
theorem storeByte_held (n a : Nat) (b : UInt8) :
    Triple (fun k => k.lockHeld = true ∧ k.accesses = n) (storeByte env p a b)
      (fun _ k => takesLock env p n true a = false ∧ k.lockHeld = true ∧ k.accesses = n + 1)
      (fun e _ => e = .panic .lockAcquire ∧ takesLock env p n true a = true) := by
  rintro k ⟨hheld, rfl⟩
  cases hlock : takesLock env p k.accesses true a with
  | true =>
    have herr : storeByte env p a b k = .error (.panic .lockAcquire) (k.tick 1) :=
      bind_error ((access_held hheld _ _).trans (if_pos hlock))
    rw [herr]
    exact ⟨rfl, rfl⟩
  | false =>
    have hok : storeByte env p a b k = .ok () { k.tick 1 with mem := update k.mem a b } :=
      (bind_ok ((access_held hheld _ _).trans (if_neg (by rw [hlock]; decide)))).trans rfl
    rw [hok]
    exact ⟨rfl, hheld, rfl⟩

theorem copyOut_held (env : Env) (p : Proc) (n a size : Nat) :
    Triple (fun k => k.lockHeld = true ∧ k.accesses = n) (copyOut env p a size)
      (fun _ k => (∀ i < size, takesLock env p (n + i) true (a + i) = false) ∧
        k.lockHeld = true ∧ k.accesses = n + size)
      (fun e _ => e = .panic .lockAcquire ∧ ∃ i < size, takesLock env p (n + i) true (a + i) = true) := by
  induction size generalizing n a with
  | zero => exact Triple.pure fun k hk => ⟨nofun, hk⟩
  | succ size ih =>
    refine Triple.bind (Q := fun _ (k : Kernel) => k.lockHeld = true ∧ k.accesses = n) (fun _ h => h)
      fun k₀ => ?_
    refine Triple.bind ((storeByte_held n a _).conseq (fun _ h => h) (fun _ _ h => h)
      fun _ _ h => ⟨h.1, 0, Nat.succ_pos _, h.2⟩) fun _ => Triple.of_imp fun hlock => ?_
    -- byte `i + 1` of the whole copy is byte `i` of the rest
    have hshift : ∀ i, takesLock env p (n + 1 + i) true (a + 1 + i) =
        takesLock env p (n + (i + 1)) true (a + (i + 1)) := fun i => by
      rw [Nat.add_right_comm n, Nat.add_right_comm a, Nat.add_assoc, Nat.add_assoc]
    refine (ih (n + 1) (a + 1)).conseq (fun _ h => h) (fun _ k h => ?_) fun _ _ h => ?_
    · refine ⟨fun i hi => ?_, h.2.1, h.2.2.trans (by omega)⟩
      rcases i with _ | i
      · exact hlock
      · exact (hshift i).symm.trans (h.1 i (by omega))
    · obtain ⟨he, i, hi, hrest⟩ := h
      exact ⟨he, i + 1, by omega, (hshift i).symm.trans hrest⟩

/-- `dir_readdir` under the lock. -/
theorem dirReaddir_held (env : Env) (p : Proc) (n buf : Nat) :
    Triple (fun k => k.lockHeld = true ∧ k.accesses = n) (dirReaddir env p buf)
      (fun _ k => k.lockHeld = true ∧ ∀ name, env.dirEntry = some name →
        ∀ i ≤ min nameMax name.length, takesLock env p (n + i) true (buf + i) = false)
      (fun e _ => e = .panic .lockAcquire ∧ ∃ name, env.dirEntry = some name ∧
        ∃ i ≤ min nameMax name.length, takesLock env p (n + i) true (buf + i) = true) := by
  rw [dirReaddir]
  cases hentry : env.dirEntry with
  | none => exact Triple.pure fun k hk => ⟨hk.1, nofun⟩
  | some name =>
    refine Triple.bind ((copyOut_held env p n buf _).conseq (fun _ h => h) (fun _ _ h => h)
      fun _ _ h => ?_) fun _ => Triple.of_imp fun hbytes => ?_
    · obtain ⟨he, i, hi, hlock⟩ := h
      exact ⟨he, name, rfl, i, hi.le, hlock⟩
    -- the null byte behind the name
    refine Triple.bind ((storeByte_held _ _ 0).conseq (fun _ h => h) (fun _ _ h => h)
      fun _ _ h => ⟨h.1, name, rfl, _, le_rfl, h.2⟩) fun _ => Triple.of_imp fun hlast => ?_
    refine Triple.pure fun k hk => ⟨hk.1, fun name' hname' i hi => ?_⟩
    cases hname'
    rcases Nat.lt_or_eq_of_le hi with hlt | rfl
    · exact hbytes i hlt
    · exact hlast

end Pintos.Userprog
