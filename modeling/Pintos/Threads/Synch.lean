/-
  Pintos.Threads.Synch

  The functions of threads/synch.c, threads/thread.c and devices/timer.c as
  instructions, and the machine that executes them.

  Interrupts are the only source of preemption: a step is the next instruction
  of the current thread, a call it makes from code of its own, or an external
  interrupt, which needs interrupts to be on and runs on the stack of the
  current thread.  A failed assertion leaves the step undefined.
-/

import Pintos.Base.Run
import Pintos.Threads.State

namespace Pintos.Threads

open Pintos.Base Function

/-! ## Semaphores and locks -/

/-- `sema_down` from the test of the value on: wait, and come back to `retry`, or
    take the semaphore and go on with `k`. -/
def semaTake (s : State) (m : SemaId) (retry : Instr) (k : State → State) : Option State :=
  if s.value m = 0 then
    threadBlock ((s.setWaiters m ((s.waiters m).orderedInsert (threadCmp s) s.current)).push
      [retry])
  else some (k (s.setValue m (s.value m - 1)))

/-- `sema_up` up to `thread_unblock`, and the thread it wakes.  `value` is an
    `unsigned`. -/
def semaWake (s : State) (m : SemaId) : Option (State × Option Tid) :=
  let s := s.setValue m ((s.value m + 1) % 2 ^ 32)
  match Base.listMax (threadPriorityLess s) (s.waiters m) with
  | none => some (s, none)
  | some t => (threadUnblock (s.setWaiters m ((s.waiters m).erase t)) t).map fun s => (s, some t)

/-- The end of `lock_acquire`. -/
def lockTaken (s : State) (l : LockId) : State :=
  { s with
    holder := update s.holder l (some s.current)
    blockingLock := update s.blockingLock s.current none
    intr := true }

/-- `lock_acquire` up to `sema_down`, for a lock that has the holder `h`. -/
def donate (s : State) (l : LockId) (h : Tid) : State :=
  { s with
    blockingLock := update s.blockingLock s.current (some l)
    donorThreads := update s.donorThreads h
      ((s.donorThreads h).orderedInsert (threadCmp s) s.current) }

/-- `lock_release` up to `sema_up`. -/
def lockRelease (s : State) (l : LockId) : State :=
  threadUpdatePriority
    { s with
      donorThreads := update s.donorThreads s.current
        ((s.donorThreads s.current).filter fun d => s.blockingLock d ≠ some l)
      holder := update s.holder l none }
    s.current

/-! ## Instructions -/

/-- A new thread, as `init_thread` and the stack frames of `thread_create` leave
    it: `kernel_thread` begins with `intr_enable`. -/
def newThread (s : State) (p : Int) : State :=
  { s with
    threadCnt := s.threadCnt + 1
    status := update s.status s.threadCnt .blocked
    priority := update s.priority s.threadCnt p
    originalPriority := update s.originalPriority s.threadCnt p
    donorThreads := update s.donorThreads s.threadCnt []
    blockingLock := update s.blockingLock s.threadCnt none
    code := update s.code s.threadCnt [.intrOn] }

/-- Executes an instruction of the current thread that has been taken off its
    list. -/
def exec (s : State) : Instr → Option State
  | .intrOn => some { s with intr := true }
  | .yield => threadYield { s with intr := false }
  | .block => threadBlock ({ s with intr := false }.push [.afterBlock])
  | .afterBlock => some { s with intr := true }
  | .unblock t =>
    -- a thread that waits for something else is on a list that this would break
    if (s.code t).head? = some .afterBlock then threadUnblock s t else none
  | .setOriginal p =>
    some { s with originalPriority := update s.originalPriority s.current p }
  | .updatePriority => some (threadUpdatePriority s s.current)
  | .propagateOwn =>
    some ({ s with intr := false }.push [.propagate (s.blockingLock s.current) 0, .intrOn])
  | .propagate l depth =>
    let r := propagateRound s l depth
    match r.2 with
    | none => some r.1
    | some (l, depth) => some (r.1.push [.propagate l depth])
  | .setTest =>
    match s.readyList with
    | [] => some s
    | top :: _ =>
      if s.priority s.current < s.priority top then some (s.push [.yield, .intrOn]) else some s
  | .create p =>
    if PRI_MIN ≤ p ∧ p ≤ PRI_MAX then
      some ((newThread s p).push
        [.acquire tidLock, .release tidLock, .createUnblock s.threadCnt, .createTest s.threadCnt])
    else none
  | .createUnblock t => threadUnblock s t
  | .createTest t =>
    if s.priority s.current < s.priority t then some (s.push [.yield, .intrOn]) else some s
  | .idleStart =>
    some ({ s with idleThread := some s.current }.push [.semaUp .idleStarted, .idleBlock])
  | .idleBlock => threadBlock ({ s with intr := false }.push [.idleHlt])
  | .idleHlt => some ({ s with intr := true }.push [.idleBlock])
  | .semaDown m => semaTake { s with intr := false } m (.semaRetry m) fun s => { s with intr := true }
  | .semaRetry m => semaTake { s with intr := false } m (.semaRetry m) fun s => { s with intr := true }
  | .semaTryDown m => some (if 0 < s.value m then s.setValue m (s.value m - 1) else s)
  | .semaUp m =>
    (semaWake s m).map fun r =>
      match r.2 with
      | none => r.1
      | some t => { r.1 with intr := false }.push [.upTest t]
  | .upTest t =>
    if s.priority s.current < s.priority t then some (s.push [.yield, .intrOn])
    else some { s with intr := true }
  | .acquire l =>
    if s.holder l = some s.current then none
    else
      match s.holder l with
      | none => some ({ s with intr := false }.push [.lockDown l])
      | some h =>
        some ((donate { s with intr := false } l h).push [.propagate (some l) 0, .lockDown l])
  | .lockDown l => semaTake s (.lock l) (.lockRetry l) fun s => lockTaken s l
  | .lockRetry l => semaTake s (.lock l) (.lockRetry l) fun s => lockTaken s l
  | .tryAcquire l =>
    if s.holder l = some s.current then none
    else if 0 < s.value (.lock l) then
      some ((s.setValue (.lock l) (s.value (.lock l) - 1)).push [.trySet l])
    else some s
  | .trySet l => some { s with holder := update s.holder l (some s.current) }
  | .release l =>
    if s.holder l = some s.current then some ((lockRelease s l).push [.semaUp (.lock l)]) else none
  | .condPush c l =>
    if s.holder l = some s.current then
      some { ((s.setValue (.waiter s.current) 0).setWaiters (.waiter s.current) []) with
        condWaiters := update s.condWaiters c (s.condWaiters c ++ [s.current]) }
    else none
  | .condSignal c l =>
    if s.holder l = some s.current then
      match s.condWaiters c with
      | [] => some s
      | w :: ws => some (s.push [.condScan c w ws])
    else none
  | .condScan c max rest =>
    match rest with
    | [] => some (s.push [.semaUp (.waiter max), .condRemove c max])
    | w :: ws =>
      -- `list_front` fails its assertion on an empty list
      match s.waiters (.waiter max), s.waiters (.waiter w) with
      | a :: _, b :: _ =>
        some (s.push [.condScan c (if s.priority a < s.priority b then w else max) ws])
      | _, _ => none
  | .condRemove c w =>
    some { s with condWaiters := update s.condWaiters c ((s.condWaiters c).erase w) }
  | .condBroadcast c l =>
    if (s.condWaiters c).isEmpty then some s
    else some (s.push [.condSignal c l, .condBroadcast c l])
  | .sleep n =>
    let s := { s with
      intr := false
      wakeupTick := update s.wakeupTick s.current (s.ticks + n) }
    threadBlock ({ s with
      sleepList := s.sleepList.orderedInsert (fun a b => s.wakeupTick a < s.wakeupTick b)
        s.current }.push [.afterSleep])
  | .afterSleep => some { s with intr := true }
  | .timerTick =>
    some ({ s with
      ticks := s.ticks + 1
      threadTicks := s.threadTicks + 1
      yieldOnReturn := s.yieldOnReturn || TIME_SLICE ≤ s.threadTicks + 1 }.push [.timerWake])
  | .timerWake =>
    match s.sleepList with
    | [] => some s
    | t :: l =>
      if s.ticks < s.wakeupTick t then some s
      else (threadUnblock { s with sleepList := l } t).map fun s => s.push [.timerWake]
  | .intrSemaUp m => (semaWake s m).map (·.1)
  | .intrReturn =>
    some <|
      if s.yieldOnReturn then { s with inIntr := false }.push [.yield, .intrOn]
      else { s with inIntr := false, intr := true }

/-! ## The machine -/

/-- The calls that code of a thread makes. -/
inductive Op where
  | threadCreate (p : Int)
  | threadYield
  | threadBlock
  | threadUnblock (t : Tid)
  | threadSetPriority (p : Int)
  | timerSleep (ticks : Int)
  | semaDown (n : Nat)
  | semaTryDown (n : Nat)
  | semaUp (n : Nat)
  | lockAcquire (l : LockId)
  | lockTryAcquire (l : LockId)
  | lockRelease (l : LockId)
  | condWait (c : CondId) (l : LockId)
  | condSignal (c : CondId) (l : LockId)
  | condBroadcast (c : CondId) (l : LockId)
  deriving DecidableEq, Repr

/-- The instructions of a call. -/
def Op.code (t : Tid) : Op → List Instr
  | .threadCreate p => [.create p]
  | .threadYield => [.yield, .intrOn]
  | .threadBlock => [.block]
  | .threadUnblock t => [.unblock t]
  | .threadSetPriority p => [.setOriginal p, .updatePriority, .propagateOwn, .setTest]
  | .timerSleep n => [.sleep n]
  | .semaDown n => [.semaDown (.plain n)]
  | .semaTryDown n => [.semaTryDown (.plain n)]
  | .semaUp n => [.semaUp (.plain n)]
  | .lockAcquire l => [.acquire l]
  | .lockTryAcquire l => [.tryAcquire l]
  | .lockRelease l => [.release l]
  | .condWait c l => [.condPush c l, .release l, .semaDown (.waiter t), .acquire l]
  | .condSignal c l => [.condSignal c l]
  | .condBroadcast c l => [.condBroadcast c l]

/-- What the handler of a device does to threads and semaphores. -/
inductive HandlerOp where
  | semaUp (n : Nat)
  | semaTryDown (n : Nat)
  | unblock (t : Tid)
  deriving DecidableEq, Repr

def HandlerOp.instr : HandlerOp → Instr
  | .semaUp n => .intrSemaUp (.plain n)
  | .semaTryDown n => .semaTryDown (.plain n)
  | .unblock t => .unblock t

inductive Label where
  | call (op : Op)
  | run
  | timer
  | device (l : List HandlerOp)
  deriving DecidableEq, Repr

/-- `intr_handler` begins. -/
def interrupt (s : State) (handler : List Instr) : Option State :=
  if s.intr then
    some ({ s with intr := false, inIntr := true, yieldOnReturn := false }.push
      (handler ++ [Instr.intrReturn]))
  else none

def next (s : State) : Label → Option State
  | .call op => if s.code s.current = [] then some (s.push (op.code s.current)) else none
  | .run =>
    match s.code s.current with
    | [] => none
    | i :: rest => exec { s with code := update s.code s.current rest } i
  | .timer => interrupt s [.timerTick]
  | .device l => interrupt s (l.map HandlerOp.instr)

/-- The kernel in `thread_start`, behind `thread_create ("idle", ...)`: the
    initial thread is about to wait for the idle thread.  Locks are free, and
    nobody waits. -/
structure Initial (s : State) : Prop where
  threadCnt : s.threadCnt = 2
  status : s.status = fun t => if t = 0 then .running else if t = 1 then .ready else .dying
  priority : s.priority 0 = PRI_DEFAULT ∧ s.priority 1 = PRI_MIN
  originalPriority : ∀ t, s.originalPriority t = s.priority t
  donorThreads : ∀ t, s.donorThreads t = []
  blockingLock : ∀ t, s.blockingLock t = none
  code : s.code = fun t =>
    if t = 0 then [.semaDown .idleStarted] else if t = 1 then [.intrOn, .idleStart] else []
  current : s.current = 0
  readyList : s.readyList = [1]
  idleThread : s.idleThread = none
  value : s.value .idleStarted = 0 ∧ ∀ l, s.value (.lock l) = 1
  waiters : ∀ m, s.waiters m = []
  holder : ∀ l, s.holder l = none
  condWaiters : ∀ c, s.condWaiters c = []
  sleepList : s.sleepList = []
  intr : s.intr = true ∧ s.inIntr = false

/-- An initial state. -/
def boot : State where
  threadCnt := 2
  status t := if t = 0 then .running else if t = 1 then .ready else .dying
  priority t := if t = 1 then PRI_MIN else PRI_DEFAULT
  originalPriority t := if t = 1 then PRI_MIN else PRI_DEFAULT
  donorThreads _ := []
  blockingLock _ := none
  wakeupTick _ := 0
  code t := if t = 0 then [.semaDown .idleStarted] else if t = 1 then [.intrOn, .idleStart] else []
  current := 0
  readyList := [1]
  idleThread := none
  value
    | .lock _ => 1
    | _ => 0
  waiters _ := []
  holder _ := none
  condWaiters _ := []
  sleepList := []
  ticks := 0
  threadTicks := 0
  intr := true
  inIntr := false
  yieldOnReturn := false

theorem boot_initial : Initial boot := by
  constructor <;> first | rfl | simp [boot]

/-- The initial thread waits for `idle_started`, the idle thread runs up to its
    loop, and the initial thread goes on. -/
def bootLabels : List Label := List.replicate 7 .run

def machine : System State Label where
  start := Initial
  next := next

end Pintos.Threads
