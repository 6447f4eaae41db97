/-
  Pintos.Threads.State

  The state of threads/thread.c, threads/synch.c and devices/timer.c: threads,
  the ready list, semaphores, locks, condition variables, the sleep list, and
  the interrupt level.

  The fields of `struct thread` are functions of the thread, those of
  `struct semaphore` functions of the semaphore.  A thread that has not been
  created has the status `THREAD_DYING` and no code.  `thread_exit` is left out:
  the states are those before a thread ends.

  What a thread still has to do is a list of instructions.  An instruction is a
  section of a source function that runs with interrupts off, or a statement
  that runs with interrupts on; a call pushes the instructions of the called
  function.  A thread whose list is empty executes code of its own.
-/

import Pintos.Base.PriorityList

namespace Pintos.Threads

open Function

abbrev Tid := Nat
abbrev LockId := Nat
abbrev CondId := Nat

/-- `enum thread_status`. -/
inductive ThreadStatus where
  | running
  | ready
  | blocked
  | dying
  deriving DecidableEq, Repr

/-- The semaphores: free-standing ones, the one inside a lock, the `waiter` that
    a thread has on its stack in `cond_wait`, and `idle_started`. -/
inductive SemaId where
  | plain (n : Nat)
  | lock (l : LockId)
  | waiter (t : Tid)
  | idleStarted
  deriving DecidableEq, Repr

abbrev DONATION_DEPTH : Nat := 8
abbrev TIME_SLICE : Nat := 4
abbrev PRI_MIN : Int := 0
abbrev PRI_DEFAULT : Int := 31
abbrev PRI_MAX : Int := 63

/-- The lock of `allocate_tid`. -/
abbrev tidLock : LockId := 0

/-- What a thread, or an interrupt handler on its stack, does next. -/
inductive Instr where
  /-- `intr_set_level (INTR_ON)`, `intr_enable ()`, or the end of an interrupt. -/
  | intrOn
  -- threads/thread.c
  | yield
  | block
  /-- Behind `thread_block`, of a thread that called it itself. -/
  | afterBlock
  | unblock (t : Tid)
  /-- `t->original_priority = new_priority` -/
  | setOriginal (p : Int)
  /-- `thread_update_priority (t)` in `thread_set_priority` -/
  | updatePriority
  /-- `thread_propagate_priority (t)` in `thread_set_priority` -/
  | propagateOwn
  /-- The loop of `thread_propagate_priority`, of the current thread. -/
  | propagate (l : Option LockId) (depth : Nat)
  /-- The test of the ready list at the end of `thread_set_priority`. -/
  | setTest
  /-- `thread_create` up to `allocate_tid`. -/
  | create (p : Int)
  /-- `thread_unblock (t)` in `thread_create` -/
  | createUnblock (t : Tid)
  /-- `if (thread_cmp (...)) thread_yield ()` in `thread_create` -/
  | createTest (t : Tid)
  /-- `idle` up to its loop. -/
  | idleStart
  | idleBlock
  /-- `sti; hlt` -/
  | idleHlt
  -- threads/synch.c
  | semaDown (s : SemaId)
  /-- Behind `thread_block` in `sema_down`. -/
  | semaRetry (s : SemaId)
  | semaTryDown (s : SemaId)
  | semaUp (s : SemaId)
  /-- `if (t->priority > thread_current ()->priority ...) thread_yield ()` -/
  | upTest (t : Tid)
  | acquire (l : LockId)
  /-- `sema_down` in `lock_acquire`, and what follows it. -/
  | lockDown (l : LockId)
  /-- Behind `thread_block` in that call. -/
  | lockRetry (l : LockId)
  | tryAcquire (l : LockId)
  /-- `lock->holder = thread_current ()` in `lock_try_acquire` -/
  | trySet (l : LockId)
  | release (l : LockId)
  /-- `cond_wait` up to `lock_release`. -/
  | condPush (c : CondId) (l : LockId)
  | condSignal (c : CondId) (l : LockId)
  /-- The loop of `list_max` in `cond_signal`: the maximum so far and the
      waiters still to be compared with it. -/
  | condScan (c : CondId) (max : Tid) (rest : List Tid)
  /-- `list_remove (e)` in `cond_signal` -/
  | condRemove (c : CondId) (w : Tid)
  | condBroadcast (c : CondId) (l : LockId)
  -- devices/timer.c and interrupt handlers
  | sleep (ticks : Int)
  /-- Behind `thread_block` in `timer_sleep`. -/
  | afterSleep
  /-- `timer_interrupt` up to its loop. -/
  | timerTick
  /-- The loop of `timer_interrupt`. -/
  | timerWake
  | intrSemaUp (s : SemaId)
  /-- The end of `intr_handler`. -/
  | intrReturn
  deriving DecidableEq, Repr

structure State where
  threadCnt : Nat
  status : Tid → ThreadStatus
  priority : Tid → Int
  originalPriority : Tid → Int
  donorThreads : Tid → List Tid
  blockingLock : Tid → Option LockId
  wakeupTick : Tid → Int
  code : Tid → List Instr
  current : Tid
  readyList : List Tid
  idleThread : Option Tid
  value : SemaId → Nat
  waiters : SemaId → List Tid
  holder : LockId → Option Tid
  condWaiters : CondId → List Tid
  sleepList : List Tid
  ticks : Int
  threadTicks : Nat
  /-- Interrupts are on. -/
  intr : Bool
  /-- `in_external_intr` -/
  inIntr : Bool
  yieldOnReturn : Bool

namespace State

/-- The current thread has the instructions `l` to execute before the rest. -/
def push (s : State) (l : List Instr) : State :=
  { s with code := update s.code s.current (l ++ s.code s.current) }

def setStatus (s : State) (t : Tid) (x : ThreadStatus) : State :=
  { s with status := update s.status t x }

def setWaiters (s : State) (m : SemaId) (l : List Tid) : State :=
  { s with waiters := update s.waiters m l }

def setValue (s : State) (m : SemaId) (n : Nat) : State :=
  { s with value := update s.value m n }

end State

/-! ## threads/thread.c -/

/-- `thread_cmp` and `thread_donor_cmp`: a goes before b. -/
def threadCmp (s : State) (a b : Tid) : Prop := s.priority b < s.priority a

instance (s : State) : DecidableRel (threadCmp s) := fun a b =>
  inferInstanceAs (Decidable (s.priority b < s.priority a))

/-- `list_insert_ordered (&ready_list, &t->elem, thread_cmp, NULL)`. -/
def readyInsert (s : State) (t : Tid) : State :=
  { s with readyList := s.readyList.orderedInsert (threadCmp s) t }

/-- `next_thread_to_run`, and the ready list it leaves. -/
def nextThreadToRun (s : State) : Option (Tid × List Tid) :=
  match s.readyList with
  | [] => s.idleThread.map fun t => (t, [])
  | t :: l => some (t, l)

/-- `schedule` and `thread_schedule_tail`; `none` is the failed assertion that
    there is a thread to run. -/
def schedule (s : State) : Option State :=
  (nextThreadToRun s).map fun r =>
    { s with
      readyList := r.2
      current := r.1
      status := update s.status r.1 .running
      threadTicks := 0 }

/-- `thread_block`. -/
def threadBlock (s : State) : Option State := schedule (s.setStatus s.current .blocked)

/-- `thread_unblock`; `none` is the failed assertion that the thread is
    blocked. -/
def threadUnblock (s : State) (t : Tid) : Option State :=
  if s.status t = .blocked then some ((readyInsert s t).setStatus t .ready) else none

/-- `thread_yield`, with interrupts off. -/
def threadYield (s : State) : Option State :=
  let s' := if s.idleThread = some s.current then s else readyInsert s s.current
  schedule (s'.setStatus s.current .ready)

/-- The assignment to `t->priority` in `thread_update_priority` and
    `thread_propagate_priority`; a ready thread changes its place. -/
def setPriority (s : State) (t : Tid) (p : Int) : State :=
  let s' := { s with priority := update s.priority t p }
  if s.status t = .ready then
    readyInsert { s' with readyList := s.readyList.erase t } t
  else s'

/-- `thread_priority_less`, and `thread_donor_priority_less`. -/
def threadPriorityLess (s : State) (a b : Tid) : Bool := s.priority a < s.priority b

theorem threadPriorityLess_iff (s : State) (a b : Tid) :
    threadPriorityLess s a b = true ↔ s.priority a < s.priority b := decide_eq_true_iff

/-- The priority `thread_update_priority` gives a thread. -/
def maxPriority (s : State) (t : Tid) : Int :=
  match Base.listMax (threadPriorityLess s) (s.donorThreads t) with
  | none => s.originalPriority t
  | some d =>
    if s.priority d > s.originalPriority t then s.priority d else s.originalPriority t

/-- `thread_update_priority`. -/
def threadUpdatePriority (s : State) (t : Tid) : State :=
  if s.priority t ≠ maxPriority s t then setPriority s t (maxPriority s t) else s

/-- One round of the loop of `thread_propagate_priority` for the current thread;
    the last component is what the next round begins with, if there is one. -/
def propagateRound (s : State) (l : Option LockId) (depth : Nat) :
    State × Option (Option LockId × Nat) :=
  match l with
  | none => (s, none)
  | some l =>
    if depth < DONATION_DEPTH then
      match s.holder l with
      | none => (s, none)
      | some h =>
        if s.priority h < s.priority s.current then
          (setPriority s h (s.priority s.current), some (s.blockingLock h, depth + 1))
        else (s, none)
    else (s, none)

end Pintos.Threads
