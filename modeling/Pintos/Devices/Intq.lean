/-
  Pintos.Devices.Intq

  Interrupt queues (`intq.c`): threads take bytes with `intq_getc`, an interrupt
  handler puts them with `intq_putc` when the queue is not full.

  `intq_getc` runs with interrupts off, so that a thread in it executes without
  interruption from one scheduling point to the next; a step of the system is
  such a piece of code, or an interrupt that arrives while the running thread is
  outside of `intq_getc`.  Every piece that gives up the processor names the
  thread that runs next: one with the highest priority of those ready.

  Results:
  - the bytes returned are a prefix of the bytes put
  - no assertion fails in runs in which a thread that has to wait is the only one
    in `intq_getc`; with two of them `wait` may be called for a queue that is not
    empty
-/

import Pintos.Base.Run
import Pintos.Base.Ring
import Pintos.Base.PriorityList

namespace Pintos.Devices

open Pintos.Base Function

def intqBufsize : Nat := 64

/-- The queue with its lock.  Only interrupt handlers put bytes, so that
    `not_full` stays a null pointer; it is left out. -/
structure Intq (n : Nat) where
  holder : Option (Fin n)
  value : Nat
  waiters : List (Fin n)
  notEmpty : Option (Fin n)
  buf : Nat → UInt8
  head : Nat
  tail : Nat

variable {n : Nat}

def intqInit (n : Nat) : Intq n := ⟨none, 1, [], none, fun _ => 0, 0, 0⟩

/-- `next` -/
def nextPos (pos : Nat) : Nat := (pos + 1) % intqBufsize

def intqEmpty (q : Intq n) : Bool := q.head == q.tail

def intqFull (q : Intq n) : Bool := nextPos q.head == q.tail

/-- Where a thread is. -/
inductive Pos where
  /-- Not in `intq_getc`: ready or running, with interrupts on, or blocked on
      something else. -/
  | outside (blocked : Bool)
  /-- Has yielded in `lock_release`; goes on with the test of the loop. -/
  | loop
  /-- Blocked in `sema_down` of the lock. -/
  | lockBlocked
  /-- Unblocked by `sema_up` of the lock. -/
  | lockReady
  /-- Blocked in `wait`. -/
  | waiting
  /-- Unblocked by `signal`. -/
  | woken
  deriving DecidableEq, Repr

def Pos.isOutside : Pos → Bool
  | outside _ => true
  | _ => false

def Pos.ready : Pos → Bool
  | outside blocked => !blocked
  | lockBlocked | waiting => false
  | loop | lockReady | woken => true

structure State (n : Nat) where
  q : Intq n
  pos : Fin n → Pos
  priority : Fin n → Int
  /-- The priority without donations through the lock of the queue. -/
  original : Fin n → Int
  /-- The donors of the lock's holder that wait for this lock. -/
  donors : List (Fin n)
  current : Fin n
  put : List UInt8
  got : List UInt8
  /-- An assertion has failed. -/
  failed : Bool

inductive Step (n : Nat) where
  /-- The running thread calls `intq_getc`. -/
  | getc (nxt : Fin n)
  /-- The running thread, in `intq_getc`, goes on. -/
  | resume (nxt : Fin n)
  /-- An interrupt handler calls `intq_putc`. -/
  | putc (byte : UInt8)
  /-- The running thread gives up the processor or is preempted. -/
  | yield (nxt : Fin n)
  /-- The running thread blocks on something else. -/
  | block (nxt : Fin n)
  | unblock (t : Fin n)
  /-- `thread_set_priority`, or a donation through another lock. -/
  | setPriority (t : Fin n) (p : Int)

namespace State

def setPos (s : State n) (t : Fin n) (p : Pos) : State n :=
  { s with pos := update s.pos t p }

@[simp] theorem setPos_pos_self (s : State n) (t : Fin n) (p : Pos) : (s.setPos t p).pos t = p :=
  update_self ..

theorem setPos_pos_ne (s : State n) {t u : Fin n} (p : Pos) (h : u ≠ t) :
    (s.setPos t p).pos u = s.pos u :=
  update_of_ne h ..

/-- An assertion fails. -/
def fail (s : State n) : State n := { s with failed := true }

/-- `schedule`: `nxt` runs, if it has the highest priority of the ready threads. -/
def schedule (s : State n) (nxt : Fin n) : Option (State n) :=
  if (s.pos nxt).ready ∧ ∀ t, (s.pos t).ready → s.priority t ≤ s.priority nxt then
    some { s with current := nxt }
  else none

/-- `wait (q, &q->not_empty)` -/
def wait (s : State n) (nxt : Fin n) : Option (State n) :=
  if !intqEmpty s.q then some s.fail
  else ({ s with q := { s.q with notEmpty := some s.current } }.setPos s.current .waiting).schedule nxt

/-- `sema_down` of the lock, the rest of `lock_acquire`, and `wait`. -/
def semaDown (s : State n) (nxt : Fin n) : Option (State n) :=
  if s.q.value = 0 then
    let waiters := s.q.waiters.orderedInsert (fun t u => s.priority u < s.priority t) s.current
    ({ s with q := { s.q with waiters := waiters } }.setPos s.current .lockBlocked).schedule nxt
  else
    { s with q := { s.q with value := s.q.value - 1, holder := some s.current } }.wait nxt

/-- The donation of `lock_acquire`: the running thread becomes a donor of `h`,
    whose priority is computed again. -/
def donate (s : State n) (h : Fin n) : State n :=
  let donors := s.donors.orderedInsert (fun t u => s.priority u < s.priority t) s.current
  { s with donors := donors,
           priority := update s.priority h
             (donors.foldl (fun p t => max p (s.priority t)) (s.original h)) }

/-- `lock_acquire (&q->lock); wait (q, &q->not_empty)` -/
def lockAcquire (s : State n) (nxt : Fin n) : Option (State n) :=
  if s.q.holder = some s.current then some s.fail
  else
    match s.q.holder with
    | some h => (s.donate h).semaDown nxt
    | none => s.semaDown nxt

/-- The byte at the tail is returned, after `signal (q, &q->not_full)`. -/
def takeByte (s : State n) : State n :=
  let s' := { s with q := { s.q with tail := nextPos s.q.tail }, got := s.got ++ [s.q.buf s.q.tail] }
  if intqFull s'.q then s'.fail else s'.setPos s'.current (.outside false)

/-- `intq_getc` from the test of its loop. -/
def getcLoop (s : State n) (nxt : Fin n) : Option (State n) :=
  if intqEmpty s.q then s.lockAcquire nxt else some s.takeByte

/-- `lock_release` up to `sema_up`. -/
def release (s : State n) : State n :=
  { s with q := { s.q with holder := none, value := s.q.value + 1 },
           donors := [],
           priority := update s.priority s.current (s.original s.current) }

/-- `lock_release`, and the loop again.  `sema_up` wakes the waiter with the
    highest priority, and yields to it if it has a higher one. -/
def lockRelease (s : State n) (nxt : Fin n) : Option (State n) :=
  if s.q.holder ≠ some s.current then some s.fail
  else
    let s := s.release
    match listMax (fun t u => decide (s.priority t < s.priority u)) s.q.waiters with
    | none => s.getcLoop nxt
    | some w =>
      let s := { s with q := { s.q with waiters := s.q.waiters.erase w } }.setPos w .lockReady
      if s.priority s.current < s.priority w then (s.setPos s.current .loop).schedule nxt
      else s.getcLoop nxt

/-- `signal (q, &q->not_empty)` -/
def signal (s : State n) : State n :=
  if intqEmpty s.q then s.fail
  else
    match s.q.notEmpty with
    | none => s
    | some w =>
      -- the assertion of `thread_unblock`
      if (s.pos w).ready then s.fail
      else { s with q := { s.q with notEmpty := none } }.setPos w .woken

def intqPutc (s : State n) (byte : UInt8) : State n :=
  { s with q := { s.q with buf := update s.q.buf s.q.head byte, head := nextPos s.q.head },
           put := s.put ++ [byte] }.signal

def next (s : State n) (a : Step n) : Option (State n) :=
  -- a failed assertion stops the kernel
  if s.failed then none
  else
    match s.pos s.current, a with
    | .outside _, .getc nxt => s.getcLoop nxt
    | .outside _, .putc byte => if intqFull s.q then none else some (s.intqPutc byte)
    | .outside _, .yield nxt => s.schedule nxt
    | .outside _, .block nxt => (s.setPos s.current (.outside true)).schedule nxt
    | .outside _, .unblock t =>
      if s.pos t = .outside true then some (s.setPos t (.outside false)) else none
    | .outside _, .setPriority t p =>
      some { s with original := update s.original t p,
                    priority := update s.priority t p }
    | .loop, .resume nxt => s.getcLoop nxt
    | .lockReady, .resume nxt => s.semaDown nxt
    | .woken, .resume nxt => s.lockRelease nxt
    | _, _ => none

/-- After `intq_init`, with threads of any priorities outside. -/
structure Initial (s : State n) : Prop where
  queue : s.q = intqInit n
  outside : ∀ t, (s.pos t).isOutside = true
  donors : s.donors = []
  put : s.put = []
  got : s.got = []
  failed : s.failed = false

end State

def intq (n : Nat) : System (State n) (Step n) where
  start := State.Initial
  next := State.next

/-- A thread that calls `intq_getc` finds a byte, or no other thread is in it. -/
def waitsAlone (s : State n) : Step n → Bool
  | .getc _ => !intqEmpty s.q || decide (∀ t, (s.pos t).isOutside = true)
  | _ => true

/-! ## The bytes -/

/-- The bytes put are those returned and those in the buffer. -/
structure Bytes (s : State n) : Prop where
  head : s.q.head < intqBufsize
  tail : s.q.tail < intqBufsize
  split : s.put = s.got ++ ringList intqBufsize s.q.buf s.q.tail s.q.head

/-- The step touches neither the buffer nor the bytes. -/
structure SameBytes (s s' : State n) : Prop where
  buf : s'.q.buf = s.q.buf
  head : s'.q.head = s.q.head
  tail : s'.q.tail = s.q.tail
  put : s'.put = s.put
  got : s'.got = s.got

variable {s s' : State n} {nxt : Fin n}

theorem Bytes.same (h : Bytes s) (hs : SameBytes s s') : Bytes s' := by
  obtain ⟨hbuf, hhead, htail, hput, hgot⟩ := hs
  refine ⟨by rw [hhead]; exact h.head, by rw [htail]; exact h.tail, ?_⟩
  rw [hput, hgot, hbuf, hhead, htail]
  exact h.split

theorem schedule_eq (hn : s.schedule nxt = some s') : s' = { s with current := nxt } := by
  rw [State.schedule] at hn
  split at hn
  · exact (Option.some.inj hn).symm
  · cases hn

theorem sameBytes_schedule (hn : s.schedule nxt = some s') : SameBytes s s' := by
  rw [schedule_eq hn]
  exact ⟨rfl, rfl, rfl, rfl, rfl⟩

theorem sameBytes_wait (hn : s.wait nxt = some s') : SameBytes s s' := by
  rw [State.wait] at hn
  split at hn
  · cases hn
    exact ⟨rfl, rfl, rfl, rfl, rfl⟩
  · obtain ⟨hbuf, hhead, htail, hput, hgot⟩ := sameBytes_schedule hn
    exact ⟨hbuf, hhead, htail, hput, hgot⟩

theorem sameBytes_semaDown (hn : s.semaDown nxt = some s') : SameBytes s s' := by
  rw [State.semaDown] at hn
  split at hn
  · obtain ⟨hbuf, hhead, htail, hput, hgot⟩ := sameBytes_schedule hn
    exact ⟨hbuf, hhead, htail, hput, hgot⟩
  · obtain ⟨hbuf, hhead, htail, hput, hgot⟩ := sameBytes_wait hn
    exact ⟨hbuf, hhead, htail, hput, hgot⟩

theorem sameBytes_lockAcquire (hn : s.lockAcquire nxt = some s') : SameBytes s s' := by
  rw [State.lockAcquire] at hn
  split at hn
  · cases hn
    exact ⟨rfl, rfl, rfl, rfl, rfl⟩
  · split at hn
    · obtain ⟨hbuf, hhead, htail, hput, hgot⟩ := sameBytes_semaDown hn
      exact ⟨hbuf, hhead, htail, hput, hgot⟩
    · exact sameBytes_semaDown hn

/-- A byte that is taken goes from the buffer to the bytes returned. -/
theorem Bytes.takeByte (h : Bytes s) (hne : intqEmpty s.q = false) : Bytes s.takeByte := by
  have hht : s.q.head ≠ s.q.tail := by simpa [intqEmpty] using hne
  have hsplit := h.split
  rw [ringList_take h.head h.tail hht] at hsplit
  have hmoved : Bytes { s with q := { s.q with tail := nextPos s.q.tail },
                               got := s.got ++ [s.q.buf s.q.tail] } := by
    refine ⟨h.head, Nat.mod_lt _ (by decide), ?_⟩
    rw [hsplit]
    simp [nextPos]
  rw [State.takeByte]
  simp only
  split <;> exact hmoved.same ⟨rfl, rfl, rfl, rfl, rfl⟩

theorem Bytes.getcLoop (h : Bytes s) (hn : s.getcLoop nxt = some s') : Bytes s' := by
  rw [State.getcLoop] at hn
  split at hn
  · exact h.same (sameBytes_lockAcquire hn)
  · rename_i hne
    cases hn
    exact h.takeByte (by simpa using hne)

theorem Bytes.lockRelease (h : Bytes s) (hn : s.lockRelease nxt = some s') : Bytes s' := by
  have hrel : Bytes s.release := h.same ⟨rfl, rfl, rfl, rfl, rfl⟩
  rw [State.lockRelease] at hn
  split at hn
  · cases hn
    exact h.same ⟨rfl, rfl, rfl, rfl, rfl⟩
  · simp only at hn
    split at hn
    · exact hrel.getcLoop hn
    · split at hn
      · obtain ⟨hbuf, hhead, htail, hput, hgot⟩ := sameBytes_schedule hn
        exact hrel.same ⟨hbuf, hhead, htail, hput, hgot⟩
      · refine Bytes.getcLoop ?_ hn
        exact hrel.same ⟨rfl, rfl, rfl, rfl, rfl⟩

theorem sameBytes_signal : SameBytes s s.signal := by
  rw [State.signal]
  split
  · exact ⟨rfl, rfl, rfl, rfl, rfl⟩
  · split
    · exact ⟨rfl, rfl, rfl, rfl, rfl⟩
    · split <;> exact ⟨rfl, rfl, rfl, rfl, rfl⟩

/-- A byte that is put goes to the end of the buffer. -/
theorem Bytes.intqPutc (h : Bytes s) (hfull : intqFull s.q = false) (byte : UInt8) :
    Bytes (s.intqPutc byte) := by
  have hne : nextPos s.q.head ≠ s.q.tail := by simpa [intqFull] using hfull
  refine Bytes.same ?_ sameBytes_signal
  refine ⟨Nat.mod_lt _ (by decide), h.tail, ?_⟩
  have hput := ringList_put s.q.buf h.head h.tail hne byte
  simp only [nextPos]
  rw [hput, h.split, List.append_assoc]

theorem Bytes.next (h : Bytes s) {a : Step n} (hn : s.next a = some s') : Bytes s' := by
  unfold State.next at hn
  split at hn
  · cases hn
  · split at hn
    · exact h.getcLoop hn
    · split at hn
      · cases hn
      · rename_i hfull
        cases hn
        exact h.intqPutc (by simpa using hfull) _
    · exact h.same (sameBytes_schedule hn)
    · obtain ⟨hbuf, hhead, htail, hput, hgot⟩ := sameBytes_schedule hn
      exact h.same ⟨hbuf, hhead, htail, hput, hgot⟩
    · split at hn
      · cases hn
        exact h.same ⟨rfl, rfl, rfl, rfl, rfl⟩
      · cases hn
    · cases hn
      exact h.same ⟨rfl, rfl, rfl, rfl, rfl⟩
    · exact h.getcLoop hn
    · exact h.same (sameBytes_semaDown hn)
    · exact h.lockRelease hn
    · cases hn

theorem Bytes.initial (hs : s.Initial) : Bytes s := by
  have hlist : ringList intqBufsize (intqInit n).buf 0 0 = [] := ringList_self
  have hpos : 0 < intqBufsize := by decide
  refine ⟨by rw [hs.queue]; exact hpos, by rw [hs.queue]; exact hpos, ?_⟩
  rw [hs.put, hs.got, hs.queue]
  exact hlist.symm

/-- In every run, the bytes returned are a prefix of the bytes put. -/
theorem got_isPrefix_put (h : (intq n).Reachable s) : s.got <+: s.put := by
  have hb : Bytes s :=
    System.Reachable.invariant (I := Bytes) (fun _ hs => Bytes.initial hs)
      (fun _ _ _ hb hn => hb.next hn) h
  rw [hb.split]
  exact List.prefix_append _ _

/-! ## The assertions -/

/-- Nobody is in `intq_getc`. -/
structure Idle (s : State n) : Prop where
  outside : ∀ t, (s.pos t).isOutside = true
  holder : s.q.holder = none
  value : s.q.value = 1
  waiters : s.q.waiters = []
  notEmpty : s.q.notEmpty = none

/-- Thread `t` is in `intq_getc` alone, with the lock. -/
structure Alone (s : State n) (t : Fin n) : Prop where
  outside : ∀ u, u ≠ t → (s.pos u).isOutside = true
  holder : s.q.holder = some t
  value : s.q.value = 0
  waiters : s.q.waiters = []
  pos : s.pos t = .waiting ∧ s.q.notEmpty = some t ∨ s.pos t = .woken ∧ s.q.notEmpty = none

structure Sound (s : State n) : Prop where
  threads : Idle s ∨ ∃ t, Alone s t
  failed : s.failed = false

theorem Sound.schedule (h : Sound s) (hn : s.schedule nxt = some s') : Sound s' := by
  rw [schedule_eq hn]
  refine ⟨?_, h.failed⟩
  rcases h.threads with hi | ⟨t, ht⟩
  · exact Or.inl ⟨hi.outside, hi.holder, hi.value, hi.waiters, hi.notEmpty⟩
  · exact Or.inr ⟨t, ht.outside, ht.holder, ht.value, ht.waiters, ht.pos⟩

/-- A thread outside goes somewhere else outside. -/
theorem Sound.setPos (h : Sound s) {t : Fin n} (ht : (s.pos t).isOutside = true) (b : Bool) :
    Sound (s.setPos t (.outside b)) := by
  have hpos : ∀ u, (s.pos u).isOutside = true →
      ((s.setPos t (.outside b)).pos u).isOutside = true := by
    intro u hu
    by_cases heq : u = t
    · rw [heq, State.setPos_pos_self]
      rfl
    · rw [State.setPos_pos_ne _ _ heq]
      exact hu
  refine ⟨?_, h.failed⟩
  rcases h.threads with hi | ⟨u, hu⟩
  · exact Or.inl ⟨fun v => hpos v (hi.outside v), hi.holder, hi.value, hi.waiters, hi.notEmpty⟩
  · refine Or.inr ⟨u, fun v hv => hpos v (hu.outside v hv), hu.holder, hu.value, hu.waiters, ?_⟩
    have hne : u ≠ t := by
      rintro rfl
      rcases hu.pos with ⟨hp, -⟩ | ⟨hp, -⟩ <;> rw [hp] at ht <;> cases ht
    rw [State.setPos_pos_ne _ _ hne]
    exact hu.pos

/-- Nobody but the running thread is in `intq_getc`, and the lock is free. -/
structure Entering (s : State n) : Prop where
  outside : ∀ u, u ≠ s.current → (s.pos u).isOutside = true
  holder : s.q.holder = none
  value : s.q.value = 1
  waiters : s.q.waiters = []
  notEmpty : s.q.notEmpty = none
  failed : s.failed = false

/-- `signal` at the end of `intq_getc`: the queue is not full once a byte has
    been taken. -/
theorem not_full_after_take (h : Bytes s) (hne : intqEmpty s.q = false) :
    intqFull { s.q with tail := nextPos s.q.tail } = false := by
  have hht : s.q.head ≠ s.q.tail := by simpa [intqEmpty] using hne
  have hhead := h.head
  have htail := h.tail
  simp only [intqFull, nextPos, intqBufsize, beq_eq_false_iff_ne] at hhead htail ⊢
  omega

/-- Only the position of the running thread and `got` change. -/
theorem takeByte_eq (h : Bytes s) (hne : intqEmpty s.q = false) :
    s.takeByte = { s with q := { s.q with tail := nextPos s.q.tail },
                          got := s.got ++ [s.q.buf s.q.tail] }.setPos s.current (.outside false) := by
  have hfull := not_full_after_take h hne
  rw [State.takeByte]
  simp only [hfull]
  rfl

theorem Entering.getcLoop (h : Entering s) (hb : Bytes s) (hn : s.getcLoop nxt = some s') :
    Sound s' := by
  have hpos : ∀ (p : Pos) u, u ≠ s.current →
      (update s.pos s.current p u).isOutside = true := by
    intro p u hu
    rw [update_of_ne hu]
    exact h.outside u hu
  rw [State.getcLoop] at hn
  split at hn
  · rename_i hempty
    -- the lock is free and the queue still empty: the thread waits
    simp only [State.lockAcquire, h.holder, reduceCtorEq, if_false, State.semaDown, h.value,
      one_ne_zero, State.wait] at hn
    rw [if_neg (by simpa [intqEmpty] using hempty)] at hn
    refine Sound.schedule ?_ hn
    refine ⟨Or.inr ⟨s.current, fun u hu => hpos .waiting u hu, rfl, rfl, h.waiters, ?_⟩, h.failed⟩
    exact Or.inl ⟨update_self .., rfl⟩
  · rename_i hne
    cases hn
    rw [takeByte_eq hb (by simpa using hne)]
    refine ⟨Or.inl ⟨fun u => ?_, h.holder, h.value, h.waiters, h.notEmpty⟩, h.failed⟩
    by_cases heq : u = s.current
    · subst heq
      simp [State.setPos, Pos.isOutside]
    · exact hpos _ u heq

/-- A call that finds a byte returns it, whoever else is in `intq_getc`. -/
theorem Sound.takeByte (h : Sound s) (hb : Bytes s) (hne : intqEmpty s.q = false)
    (hcur : (s.pos s.current).isOutside = true) : Sound s.takeByte := by
  rw [takeByte_eq hb hne]
  have hmoved : Sound { s with q := { s.q with tail := nextPos s.q.tail },
                               got := s.got ++ [s.q.buf s.q.tail] } := by
    refine ⟨?_, h.failed⟩
    rcases h.threads with hi | ⟨t, ht⟩
    · exact Or.inl ⟨hi.outside, hi.holder, hi.value, hi.waiters, hi.notEmpty⟩
    · exact Or.inr ⟨t, ht.outside, ht.holder, ht.value, ht.waiters, ht.pos⟩
  exact hmoved.setPos hcur false

theorem Sound.intqPutc (h : Sound s) (hb : Bytes s) (hfull : intqFull s.q = false) (byte : UInt8) :
    Sound (s.intqPutc byte) := by
  have hhead := hb.head
  have hne : ¬ nextPos s.q.head = s.q.tail := by simpa [intqFull] using hfull
  have hempty : intqEmpty ({ s.q with buf := update s.q.buf s.q.head byte,
                                      head := nextPos s.q.head } : Intq n) = false := by
    simpa [intqEmpty] using hne
  rw [State.intqPutc, State.signal]
  simp only [hempty, Bool.false_eq_true, if_false]
  rcases h.threads with hi | ⟨t, ht⟩
  · simp only [hi.notEmpty]
    exact ⟨Or.inl ⟨hi.outside, hi.holder, hi.value, hi.waiters, rfl⟩, h.failed⟩
  · rcases ht.pos with ⟨hp, hnot⟩ | ⟨hp, hnot⟩
    · -- the thread that waits is woken
      simp only [hnot, hp, Pos.ready, Bool.false_eq_true, if_false]
      refine ⟨Or.inr ⟨t, fun u hu => ?_, ht.holder, ht.value, ht.waiters, ?_⟩, h.failed⟩
      · rw [State.setPos_pos_ne _ _ hu]
        exact ht.outside u hu
      · exact Or.inr ⟨update_self .., rfl⟩
    · simp only [hnot]
      exact ⟨Or.inr ⟨t, ht.outside, ht.holder, ht.value, ht.waiters, Or.inr ⟨hp, rfl⟩⟩, h.failed⟩

/-- A woken thread is the only one inside, and holds the lock. -/
theorem Sound.lockRelease (h : Sound s) (hb : Bytes s) (hpos : s.pos s.current = .woken)
    (hn : s.lockRelease nxt = some s') : Sound s' := by
  rcases h.threads with hi | ⟨t, ht⟩
  · have := hi.outside s.current
    rw [hpos] at this
    cases this
  · obtain rfl : s.current = t := by
      by_contra hne
      have := ht.outside s.current hne
      rw [hpos] at this
      cases this
    have hnot : s.q.notEmpty = none := by
      rcases ht.pos with ⟨hp, -⟩ | ⟨-, hnot⟩
      · rw [hpos] at hp
        cases hp
      · exact hnot
    have hent : Entering s.release :=
      ⟨ht.outside, rfl, by simp [State.release, ht.value], ht.waiters, hnot, h.failed⟩
    have hwait : s.release.q.waiters = [] := ht.waiters
    simp only [State.lockRelease, ht.holder, ne_eq, not_true_eq_false, if_false, hwait,
      listMax] at hn
    exact hent.getcLoop (hb.same ⟨rfl, rfl, rfl, rfl, rfl⟩) hn

/-- Nobody waits for the lock, or has yielded while releasing it. -/
theorem Sound.not_loop (h : Sound s) (t : Fin n) : s.pos t ≠ .loop ∧ s.pos t ≠ .lockReady := by
  rcases h.threads with hi | ⟨u, hu⟩
  · have hout := hi.outside t
    constructor <;> intro hp <;> rw [hp] at hout <;> cases hout
  · by_cases heq : t = u
    · subst heq
      rcases hu.pos with ⟨hp, -⟩ | ⟨hp, -⟩ <;> rw [hp] <;> exact ⟨nofun, nofun⟩
    · have hout := hu.outside t heq
      constructor <;> intro hp <;> rw [hp] at hout <;> cases hout

theorem Sound.next (h : Sound s) (hb : Bytes s) {a : Step n} (ha : waitsAlone s a = true)
    (hn : s.next a = some s') : Sound s' := by
  unfold State.next at hn
  split at hn
  · cases hn
  · split at hn
    · -- `getc`
      rename_i b nxt hpos
      have hcur : (s.pos s.current).isOutside = true := by rw [hpos]; rfl
      by_cases hempty : intqEmpty s.q = true
      · simp only [waitsAlone, hempty, Bool.not_true, Bool.false_or, decide_eq_true_eq] at ha
        rcases h.threads with hi | ⟨t, ht⟩
        · refine Entering.getcLoop ?_ hb hn
          exact ⟨fun u _ => hi.outside u, hi.holder, hi.value, hi.waiters, hi.notEmpty, h.failed⟩
        · have := ha t
          rcases ht.pos with ⟨hp, -⟩ | ⟨hp, -⟩ <;> rw [hp] at this <;> cases this
      · rw [State.getcLoop, if_neg hempty] at hn
        cases hn
        exact h.takeByte hb (by simpa using hempty) hcur
    · split at hn
      · cases hn
      · rename_i hfull
        cases hn
        exact h.intqPutc hb (by simpa using hfull) _
    · exact h.schedule hn
    · rename_i b nxt hpos
      exact (h.setPos (by rw [hpos]; rfl) true).schedule hn
    · split at hn
      · rename_i hpos
        cases hn
        exact h.setPos (by rw [hpos]; rfl) false
      · cases hn
    · cases hn
      refine ⟨?_, h.failed⟩
      rcases h.threads with hi | ⟨t, ht⟩
      · exact Or.inl ⟨hi.outside, hi.holder, hi.value, hi.waiters, hi.notEmpty⟩
      · exact Or.inr ⟨t, ht.outside, ht.holder, ht.value, ht.waiters, ht.pos⟩
    · rename_i nxt hpos
      exact absurd hpos (h.not_loop _).1
    · rename_i nxt hpos
      exact absurd hpos (h.not_loop _).2
    · rename_i nxt hpos
      exact h.lockRelease hb hpos hn
    · cases hn

theorem Sound.initial (hs : s.Initial) : Sound s := by
  refine ⟨Or.inl ⟨hs.outside, ?_, ?_, ?_, ?_⟩, hs.failed⟩ <;> rw [hs.queue] <;> rfl

/-- The queue is a pipe, and no assertion of `intq_getc`, `intq_putc`, `wait` and
    `signal` fails, in every run in which a thread that has to wait is alone. -/
theorem intq_pipe (h : (intq n).Reaches (fun s a => waitsAlone s a = true) s) :
    s.got <+: s.put ∧ s.failed = false := by
  have hok : Bytes s ∧ Sound s := by
    refine System.Reaches.invariant (I := fun s => Bytes s ∧ Sound s) ?_ ?_ h
    · exact fun s hs => ⟨Bytes.initial hs, Sound.initial hs⟩
    · exact fun s a s' hs ha hn => ⟨hs.1.next hn, hs.2.next hs.1 ha hn⟩
  exact ⟨got_isPrefix_put h.reachable, hok.2.failed⟩

/-- A thread 0 that does not use the queue, a thread 1 of priority 31, and a
    thread 2 of priority 32 that is blocked at first. -/
def State.threeThreads : State 3 where
  q := intqInit 3
  pos t := .outside (t == 2)
  priority t := if t = 0 then 0 else if t = 1 then 31 else 32
  original t := if t = 0 then 0 else if t = 1 then 31 else 32
  donors := []
  current := 1
  put := []
  got := []
  failed := false

theorem State.threeThreads_initial : State.threeThreads.Initial :=
  ⟨rfl, fun _ => rfl, rfl, rfl, rfl, rfl⟩

/-- Thread 1 waits and gets the byte 65; then thread 2 takes the byte 66 that has
    arrived meanwhile. -/
theorem intq_pipe_two : ∃ s : State 3, s.put = [65, 66] ∧ s.got = [65, 66] ∧
    s.got <+: s.put ∧ s.failed = false := by
  obtain ⟨s, hs, hp⟩ := System.reaches_of_run (S := intq 3) (s := State.threeThreads)
    (fun s a => waitsAlone s a = true)
    (l := [.getc 0, .putc 65, .putc 66, .yield 1, .resume 1, .unblock 2, .yield 2, .getc 2])
    (p := fun s => s.put == [65, 66] && s.got == [65, 66])
    State.threeThreads_initial (by decide)
  simp only [Bool.and_eq_true, beq_iff_eq] at hp
  exact ⟨s, hp.1, hp.2, intq_pipe hs⟩

/-- Thread 2 blocks on the lock while thread 1 waits with it.  A byte arrives,
    thread 1 is woken and releases the lock; thread 2 preempts it, takes the lock
    and calls `wait` although the queue is not empty. -/
theorem intq_wait_fails : ∃ s : State 3, (intq 3).Reachable s ∧
    intqEmpty s.q = false ∧ s.failed = true := by
  obtain ⟨s, hs, hp⟩ := System.reachable_of_run (S := intq 3) (s := State.threeThreads)
    (l := [.getc 0, .unblock 2, .yield 2, .getc 0, .putc 65, .yield 1, .resume 2, .resume 0])
    (p := fun s => !intqEmpty s.q && s.failed)
    State.threeThreads_initial (by decide)
  simp only [Bool.and_eq_true, Bool.not_eq_true'] at hp
  exact ⟨s, hs, hp⟩

end Pintos.Devices
