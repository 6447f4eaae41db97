/-
  Pintos.Userprog.ExitState

  The exit/wait handshake between a process and its children: the shared
  `struct exit_state` record (threads/thread.h), `exit` (userprog/syscall.c),
  `kill` (userprog/exception.c), `process_execute`, `start_process` and
  `process_wait` (userprog/process.c).

  One parent and any number of children run interleaved, one statement that
  touches a shared record at a time.  `sema_down` and `sema_up` run with
  interrupts off, so each is one step; a parent that finds the semaphore at 0
  blocks and tries again after a wake-up.  Statements that touch no shared
  record (printing, `malloc`, the list walk over the parent's own list) are
  folded into the neighbouring step.

  A record is allocated by the parent and may be freed by the parent while the
  child still runs, so the model keeps a `freed` mark on it and never reuses
  it.
-/

import Pintos.Base.Run

namespace Pintos.Userprog

open Pintos.Base

/-- A semaphore of an exit record.  Only the parent downs it, so its waiters
    list holds at most the parent. -/
structure Sema where
  value : Nat
  waiter : Bool
  deriving DecidableEq, Repr

/-- `struct exit_state`, with the mark left by `free`. -/
structure ExitState where
  tid : Nat
  exitWait : Sema
  loadWait : Sema
  exitStatus : Int
  loadSuccess : Bool
  waiting : Bool
  exited : Bool
  freed : Bool
  deriving DecidableEq, Repr

/-- The record as `process_execute` fills it in before `thread_create`; `tid`
    is still unset. -/
def ExitState.fresh : ExitState where
  tid := 0
  exitWait := ⟨0, false⟩
  loadWait := ⟨0, false⟩
  exitStatus := -1
  loadSuccess := false
  waiting := false
  exited := false
  freed := false

/-- The statement a child executes next. -/
inductive ChildPc
  | load
  | setLoadSuccess (success : Bool)
  | upLoadWait (success : Bool)
  | user
  | killSetStatus
  | killUp
  | exitSetStatus (status : Int)
  | exitSetExited
  | exitTestWaiting
  | exitUp
  | gone
  deriving DecidableEq, Repr

/-- A child process: its next statement and its record.  The last three fields
    record history for the specification: the status handed to `exit`, whether
    `process_execute` has returned its tid, and what `process_wait` calls on
    its tid have returned since, oldest first. -/
structure Child where
  pc : ChildPc
  es : ExitState
  status : Option Int
  started : Bool
  results : List Int
  deriving DecidableEq, Repr

def Child.fresh : Child := ⟨.load, .fresh, none, false, []⟩

/-- The statement the parent executes next; the argument is the child's tid. -/
inductive ParentPc
  | user
  | execSetTid (c : Nat)
  | execPush (c : Nat)
  | execDown (c : Nat)
  | execTestLoad (c : Nat)
  | execRemove (c : Nat)
  | execFree (c : Nat)
  | waitRemove (c : Nat)
  | waitSetWaiting (c : Nat)
  | waitTestExited (c : Nat)
  | waitDown (c : Nat)
  | waitReadStatus (c : Nat)
  | waitFree (c : Nat) (status : Int)
  deriving DecidableEq, Repr

/-- The parent, its `children_exit_state` list and its children by tid.
    `blocked` says that the parent sleeps in the `sema_down` it is at. -/
structure Family where
  pc : ParentPc
  blocked : Bool
  childrenExitState : List Nat
  children : Nat → Option Child

namespace Family

def setChild (s : Family) (c : Nat) (ch : Child) : Family :=
  { s with children := Function.update s.children c (some ch) }

/-- Logs the value returned by a `process_wait (c)` call. -/
def returned (s : Family) (c : Nat) (r : Int) : Family :=
  match s.children c with
  | some ch => if ch.started then s.setChild c { ch with results := ch.results ++ [r] } else s
  | none => s

/-- `sema_up` on `exit_wait`. -/
def upExitWait (s : Family) (c : Nat) (ch : Child) : Family :=
  { s.setChild c { ch with es := { ch.es with exitWait := ⟨ch.es.exitWait.value + 1, false⟩ } }
    with blocked := s.blocked && !ch.es.exitWait.waiter }

/-- `sema_up` on `load_wait`. -/
def upLoadWait (s : Family) (c : Nat) (ch : Child) : Family :=
  { s.setChild c { ch with es := { ch.es with loadWait := ⟨ch.es.loadWait.value + 1, false⟩ } }
    with blocked := s.blocked && !ch.es.loadWait.waiter }

/-- The child's next statement.  `load` and user code end by a label of their
    own. -/
def childNext (s : Family) (c : Nat) (ch : Child) : Option Family :=
  match ch.pc with
  | .setLoadSuccess ok =>
    some (s.setChild c { ch with pc := .upLoadWait ok, es := { ch.es with loadSuccess := ok } })
  | .upLoadWait ok =>
    -- A failed load clears `exit_state` and leaves through `thread_exit`.
    some (s.upLoadWait c { ch with pc := if ok then .user else .gone })
  | .killSetStatus =>
    some (s.setChild c { ch with pc := .killUp, es := { ch.es with exitStatus := -1 } })
  | .killUp =>
    some (s.upExitWait c { ch with pc := .exitSetStatus (-1) })
  | .exitSetStatus st =>
    some (s.setChild c { ch with pc := .exitSetExited, es := { ch.es with exitStatus := st } })
  | .exitSetExited =>
    some (s.setChild c { ch with pc := .exitTestWaiting, es := { ch.es with exited := true } })
  | .exitTestWaiting =>
    some (s.setChild c { ch with pc := if ch.es.waiting then .exitUp else .gone })
  | .exitUp =>
    some (s.upExitWait c { ch with pc := .gone })
  | .load | .user | .gone => none

/-- The parent's next statement on child `c`'s record. -/
def parentNext (s : Family) (c : Nat) (ch : Child) : Option Family :=
  match s.pc with
  | .execSetTid _ =>
    some { s.setChild c { ch with es := { ch.es with tid := c } } with pc := .execPush c }
  | .execPush _ =>
    some { s with childrenExitState := s.childrenExitState ++ [c], pc := .execDown c }
  | .execDown _ =>
    if ch.es.loadWait.value = 0 then
      some { s.setChild c { ch with es := { ch.es with loadWait := ⟨0, true⟩ } }
        with blocked := true }
    else
      some { s.setChild c
          { ch with es := { ch.es with loadWait :=
            ⟨ch.es.loadWait.value - 1, ch.es.loadWait.waiter⟩ } }
        with pc := .execTestLoad c }
  | .execTestLoad _ =>
    if ch.es.loadSuccess then
      some { s.setChild c { ch with started := true } with pc := .user }
    else
      some { s with pc := .execRemove c }
  | .execRemove _ =>
    some { s with childrenExitState := s.childrenExitState.erase c, pc := .execFree c }
  | .execFree _ =>
    some { s.setChild c { ch with es := { ch.es with freed := true } } with pc := .user }
  | .waitRemove _ =>
    some { s with childrenExitState := s.childrenExitState.erase c, pc := .waitSetWaiting c }
  | .waitSetWaiting _ =>
    some { s.setChild c { ch with es := { ch.es with waiting := true } }
      with pc := .waitTestExited c }
  | .waitTestExited _ =>
    some { s with pc := if ch.es.exited then .waitReadStatus c else .waitDown c }
  | .waitDown _ =>
    if ch.es.exitWait.value = 0 then
      some { s.setChild c { ch with es := { ch.es with exitWait := ⟨0, true⟩ } }
        with blocked := true }
    else
      some { s.setChild c
          { ch with es := { ch.es with exitWait :=
            ⟨ch.es.exitWait.value - 1, ch.es.exitWait.waiter⟩ } }
        with pc := .waitReadStatus c }
  | .waitReadStatus _ => some { s with pc := .waitFree c ch.es.exitStatus }
  | .waitFree _ r =>
    some { (s.setChild c { ch with es := { ch.es with freed := true } }).returned c r
      with pc := .user }
  | .user => none

end Family

/-- The child whose record the parent is working on. -/
def ParentPc.child? : ParentPc → Option Nat
  | .user => none
  | .execSetTid c | .execPush c | .execDown c | .execTestLoad c | .execRemove c | .execFree c
  | .waitRemove c | .waitSetWaiting c | .waitTestExited c | .waitDown c | .waitReadStatus c
  | .waitFree c _ => some c

/-- What can happen next: the parent calls `process_execute` or `process_wait`
    or executes its next statement; a child comes back from `load`, faults
    inside it, calls `exit`, is killed, or executes its next statement. -/
inductive FamilyStep
  | exec (c : Nat)
  | wait (c : Nat)
  | parent
  | loadReturns (c : Nat) (success : Bool)
  | loadFaults (c : Nat)
  | exit (c : Nat) (status : Int)
  | kill (c : Nat)
  | child (c : Nat)
  deriving DecidableEq, Repr

namespace Family

/-- The record `process_wait (tid)` finds on `children_exit_state`. -/
def findExitState (s : Family) (tid : Nat) : Option Nat :=
  s.childrenExitState.find? fun c => (s.children c).any fun ch => ch.es.tid == tid

/-- One step.  `exec c` stands for a successful `thread_create` that returned
    the tid `c`; tids are never given out twice (`allocate_tid`). -/
def next (s : Family) : FamilyStep → Option Family
  | .exec c =>
    if s.pc = .user ∧ s.children c = none then
      some { s.setChild c .fresh with pc := .execSetTid c }
    else none
  | .wait c =>
    if s.pc = .user then
      match s.findExitState c with
      | some k => some { s with pc := .waitRemove k }
      | none => some (s.returned c (-1))
    else none
  | .parent =>
    if s.blocked then none
    else (s.pc.child?).bind fun c => (s.children c).bind fun ch => s.parentNext c ch
  | .loadReturns c ok =>
    (s.children c).bind fun ch =>
      if ch.pc = .load then some (s.setChild c { ch with pc := .setLoadSuccess ok }) else none
  | .loadFaults c =>
    (s.children c).bind fun ch =>
      if ch.pc = .load then
        some (s.setChild c { ch with pc := .exitSetStatus (-1), status := some (-1) })
      else none
  | .exit c st =>
    (s.children c).bind fun ch =>
      if ch.pc = .user then
        some (s.setChild c { ch with pc := .exitSetStatus st, status := some st })
      else none
  | .kill c =>
    (s.children c).bind fun ch =>
      if ch.pc = .user then
        some (s.setChild c { ch with pc := .killSetStatus, status := some (-1) })
      else none
  | .child c => (s.children c).bind fun ch => s.childNext c ch

/-- A parent that has executed nothing yet. -/
def initial : Family := ⟨.user, false, [], fun _ => none⟩

end Family

/-- The parent and its children. -/
def family : System Family FamilyStep where
  start s := s = Family.initial
  next := Family.next

end Pintos.Userprog
