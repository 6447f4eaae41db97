/-
  Pintos.Threads.Queues

  Which list a thread is on.  A ready thread is on the ready list, and only
  there; a blocked thread is on the list that the instruction it will continue
  with names, and nowhere else.  The list element that the ready list and the
  semaphores share is therefore on one list at a time.

  The invariant is about a part of the state, the `Queues`, so that an
  instruction that does not touch this part has nothing to show.
-/

import Pintos.Threads.Synch

namespace Pintos.Threads

open Pintos.Base Function

variable {l d : List Tid} {w : SemaId → List Tid} {m : SemaId}

/-- The semaphore a thread waits for that has been blocked in `sema_down` and
    will continue with this instruction. -/
def Instr.retries : Instr → Option SemaId
  | .semaRetry m => some m
  | .lockRetry l => some (.lock l)
  | _ => none

/-- The instructions of the idle thread and of interrupt handlers.  The idle
    thread does not wait for anything. -/
def Instr.ofIdle : Instr → Bool
  | .intrOn | .yield | .idleStart | .idleBlock | .idleHlt | .semaUp _ | .upTest _ | .timerTick | .timerWake
  | .intrSemaUp _ | .semaTryDown _ | .unblock _ | .intrReturn => true
  | _ => false

/-- The thread that `thread_start` creates to be the idle thread. -/
abbrev idleTid : Tid := 1

/-- The instructions that `idle` ends with for now. -/
def Instr.endsIdle : Instr → Bool
  | .idleStart | .idleBlock | .idleHlt => true
  | _ => false

/-- The instructions of the idle thread: it comes back to its loop. -/
def IdleCode (l : List Instr) : Prop :=
  (∀ i ∈ l, i.ofIdle = true) ∧ ∃ i, l.getLast? = some i ∧ i.endsIdle = true

/-- The thread whose instruction it can be: a `waiter` semaphore is waited for by
    the thread that has it on its stack, and the loop of `idle` belongs to the
    thread that `idle_thread` points to.  The semaphore inside a lock is used by
    the functions of locks only. -/
@[simp] def Instr.belongs (idle : Option Tid) (t : Tid) : Instr → Prop
  | .idleStart => t = idleTid
  | .idleBlock | .idleHlt => idle = some t
  | .semaDown (.waiter u) => u = t
  | .semaRetry (.waiter u) => u = t
  | .semaDown (.lock _) | .semaRetry (.lock _) => False
  | .semaTryDown m | .intrSemaUp m => ∃ n, m = .plain n
  | _ => True

/-- The lists of threads, and what decides on them. -/
structure Queues where
  threadCnt : Nat
  status : Tid → ThreadStatus
  code : Tid → List Instr
  current : Tid
  readyList : List Tid
  idleThread : Option Tid
  waiters : SemaId → List Tid
  sleepList : List Tid

def State.queues (s : State) : Queues :=
  ⟨s.threadCnt, s.status, s.code, s.current, s.readyList, s.idleThread, s.waiters, s.sleepList⟩

namespace Queues

variable (q : Queues)

/-- The semaphore that thread `t` will try again to take. -/
def retries (t : Tid) : Option SemaId := (q.code t).head?.bind Instr.retries

structure Ok : Prop where
  running : q.status q.current = .running
  unique : ∀ t, q.status t = .running → t = q.current
  fresh : ∀ t, q.threadCnt ≤ t → q.status t = .dying ∧ q.code t = []
  ready : ∀ t, t ∈ q.readyList ↔ q.status t = .ready ∧ q.idleThread ≠ some t
  readyNodup : q.readyList.Nodup
  waiters : ∀ m t, t ∈ q.waiters m ↔ q.status t = .blocked ∧ q.retries t = some m
  waitersNodup : ∀ m, (q.waiters m).Nodup
  sleep : ∀ t, t ∈ q.sleepList ↔ q.status t = .blocked ∧ (q.code t).head? = some .afterSleep
  sleepNodup : q.sleepList.Nodup
  /-- A thread that is being created is blocked, and one thread creates it. -/
  created : ∀ c t, .createUnblock t ∈ q.code c →
    q.status t = .blocked ∧ q.code t = [.intrOn] ∧ (q.code c).count (.createUnblock t) = 1
  creator : ∀ c d t, .createUnblock t ∈ q.code c → .createUnblock t ∈ q.code d → c = d
  idleCode : IdleCode (q.code idleTid)
  idleBlocked : q.status idleTid = .blocked →
    q.idleThread = some idleTid ∧ (q.code idleTid).head? = some .idleHlt
  idleExists : q.status idleTid ≠ .dying
  idleThread : ∀ t, q.idleThread = some t → t = idleTid
  belongs : ∀ t, ∀ i ∈ q.code t, i.belongs q.idleThread t

variable {q}

/-- The current thread gets other instructions. -/
theorem Ok.recode (h : q.Ok) (l : List Instr)
    (hcreate : ∀ t, l.count (.createUnblock t) ≤ (q.code q.current).count (.createUnblock t))
    (hidle : q.current = idleTid → IdleCode l)
    (hbelongs : ∀ i ∈ l, i ∈ q.code q.current ∨ i.belongs q.idleThread q.current) :
    Ok { q with code := update q.code q.current l } := by
  have hmem : ∀ t, Instr.createUnblock t ∈ l → .createUnblock t ∈ q.code q.current := by
    intro t ht
    have := hcreate t
    have : 0 < l.count (.createUnblock t) := List.count_pos_iff.mpr ht
    exact List.count_pos_iff.mp (by omega)
  have hcur := h.running
  constructor
  case running => exact h.running
  case unique => exact h.unique
  case fresh =>
    have := h.fresh
    grind
  case ready => exact h.ready
  case readyNodup => exact h.readyNodup
  case waitersNodup => exact h.waitersNodup
  case sleepNodup => exact h.sleepNodup
  case idleExists => exact h.idleExists
  case idleThread => exact h.idleThread
  case waiters =>
    have := h.waiters
    simp only [retries] at this ⊢
    grind
  case sleep =>
    have := h.sleep
    grind
  case created =>
    have := h.created
    grind
  case creator =>
    have := h.creator
    grind
  case idleCode =>
    have := h.idleCode
    grind
  case idleBlocked =>
    have := h.idleBlocked
    grind
  case belongs =>
    have := h.belongs
    grind

/-- A blocked thread that is on no list, or has been taken off its list, becomes
    ready. -/
theorem Ok.wake (h : q.Ok) {t : Tid} (hb : q.status t = .blocked) (hidle : t ≠ idleTid)
    (hnew : ∀ c, .createUnblock t ∉ q.code c) (hl : l.Perm (t :: q.readyList))
    (hw : ∀ m u, u ∈ w m ↔ u ∈ q.waiters m ∧ u ≠ t) (hwn : ∀ m, (w m).Nodup)
    (hs : ∀ u, u ∈ d ↔ u ∈ q.sleepList ∧ u ≠ t) (hsn : d.Nodup) :
    Ok { q with
      status := update q.status t .ready
      readyList := l
      waiters := w
      sleepList := d } := by
  have hlt : ∀ u, u ∈ l ↔ u = t ∨ u ∈ q.readyList := fun u => by simpa using hl.mem_iff (a := u)
  have hrun := h.running
  constructor
  case running => grind
  case unique =>
    have := h.unique
    grind
  case fresh =>
    have := h.fresh
    grind
  case ready =>
    have := h.ready
    have := h.idleThread
    grind
  case readyNodup =>
    have := h.ready t
    rw [hl.nodup_iff]
    exact List.nodup_cons.mpr ⟨by grind, h.readyNodup⟩
  case waitersNodup => exact hwn
  case sleepNodup => exact hsn
  case idleCode => exact h.idleCode
  case idleThread => exact h.idleThread
  case belongs => exact h.belongs
  case creator => exact h.creator
  case waiters =>
    have := h.waiters
    simp only [retries] at this ⊢
    grind
  case sleep =>
    have := h.sleep
    grind
  case created =>
    have := h.created
    grind
  case idleBlocked =>
    have := h.idleBlocked
    grind
  case idleExists =>
    have := h.idleExists
    grind

/-- The thread that runs next. -/
def Next (q : Queues) (n : Tid) (l : List Tid) : Prop :=
  q.readyList = n :: l ∨ q.readyList = [] ∧ l = [] ∧ q.idleThread = some n

theorem Ok.next_ne (h : q.Ok) {n : Tid} (hn : q.Next n l) :
    n ∉ l ∧ l.Nodup ∧ (∀ t, t ∈ q.readyList ↔ t ∈ l ∨ (t = n ∧ q.idleThread ≠ some n)) := by
  have hnodup := h.readyNodup
  have hready := h.ready n
  rcases hn with hn | ⟨hn, rfl, hi⟩
  · rw [hn] at hnodup hready ⊢
    simp only [List.nodup_cons, List.mem_cons] at hnodup hready ⊢
    grind
  · grind

/-- The current thread blocks, with the instructions `c` to continue with, and
    the next one runs. -/
theorem Ok.block (h : q.Ok) {n : Tid} {c : List Instr} (hn : q.Next n l)
    (hcreate : ∀ t, c.count (.createUnblock t) ≤ (q.code q.current).count (.createUnblock t))
    (hidle : q.current = idleTid →
      q.idleThread = some idleTid ∧ c.head? = some .idleHlt ∧ IdleCode c)
    (hbelongs : ∀ i ∈ c, i ∈ q.code q.current ∨ i.belongs q.idleThread q.current)
    (hw : ∀ m u, u ∈ w m ↔
      u ∈ q.waiters m ∨ u = q.current ∧ c.head?.bind Instr.retries = some m)
    (hwn : ∀ m, (w m).Nodup)
    (hs : ∀ u, u ∈ d ↔ u ∈ q.sleepList ∨ u = q.current ∧ c.head? = some .afterSleep)
    (hsn : d.Nodup) :
    Ok { q with
      status := update (update q.status q.current .blocked) n .running
      code := update q.code q.current c
      current := n
      readyList := l
      waiters := w
      sleepList := d } := by
  obtain ⟨hnl, hlnodup, hmem⟩ := h.next_ne hn
  have hready := h.ready
  have hrun := h.running
  have hnew : ∀ t, Instr.createUnblock t ∈ c → .createUnblock t ∈ q.code q.current := by
    intro t ht
    have := hcreate t
    have : 0 < c.count (.createUnblock t) := List.count_pos_iff.mpr ht
    exact List.count_pos_iff.mp (by omega)
  -- the next thread is ready, or it is the idle thread
  have hnext : q.status n = .ready ∨ q.idleThread = some n := by
    rcases hn with hn | ⟨-, -, hi⟩
    · exact Or.inl ((hready n).mp (by simp [hn])).1
    · exact Or.inr hi
  have hidleCode := h.idleCode
  have hidleBlocked := h.idleBlocked
  have hidleThread := h.idleThread
  have hidleRetry : q.status idleTid = .blocked → q.retries idleTid = none := by
    intro hb
    simp [retries, (hidleBlocked hb).2, Instr.retries]
  constructor
  case running => grind
  case unique =>
    have := h.unique
    grind
  case fresh =>
    have := h.fresh
    have := h.idleExists
    grind
  case ready => grind
  case readyNodup => exact hlnodup
  case waitersNodup => exact hwn
  case sleepNodup => exact hsn
  case waiters =>
    have := h.waiters
    simp only [retries] at this hidleRetry ⊢
    grind [Instr.retries]
  case sleep =>
    have := h.sleep
    grind
  case created =>
    have := h.created
    grind
  case creator =>
    have := h.creator
    grind
  case idleCode => grind
  case idleThread => exact h.idleThread
  case belongs =>
    have := h.belongs
    grind
  case idleBlocked => grind
  case idleExists =>
    have := h.idleExists
    grind

/-- The current thread gives way to the next one. -/
theorem Ok.yield (h : q.Ok) {n : Tid} {r : List Tid}
    (hr : (q.idleThread = some q.current ∧ r = q.readyList) ∨
      (q.idleThread ≠ some q.current ∧ r.Perm (q.current :: q.readyList)))
    (hn : { q with readyList := r }.Next n l) :
    Ok { q with
      status := update (update q.status q.current .ready) n .running
      current := n
      readyList := l } := by
  have hready := h.ready
  have hrun := h.running
  have hmemr : ∀ t, t ∈ r ↔ t ∈ q.readyList ∨ (t = q.current ∧ q.idleThread ≠ some q.current) := by
    intro t
    rcases hr with ⟨hi, rfl⟩ | ⟨hi, hp⟩
    · simp [hi]
    · rw [hp.mem_iff]
      simp [hi, or_comm]
  have hnodup : r.Nodup := by
    rcases hr with ⟨-, rfl⟩ | ⟨-, hp⟩
    · exact h.readyNodup
    · rw [hp.nodup_iff]
      exact List.nodup_cons.mpr ⟨by grind, h.readyNodup⟩
  -- the next thread was ready or current, or it is the idle thread
  have hnext : n ∉ l ∧ l.Nodup ∧
      (∀ t, t ∈ r ↔ t ∈ l ∨ (t = n ∧ q.idleThread ≠ some n)) ∧
      (q.status n = .ready ∨ n = q.current ∨ q.idleThread = some n) := by
    rcases hn with hn | ⟨hn, rfl, hi⟩
    · have hn : r = n :: l := hn
      subst hn
      have hn := hmemr n
      simp only [List.nodup_cons, List.mem_cons] at hnodup hmemr hn ⊢
      grind
    · have hn : r = [] := hn
      subst hn
      grind
  obtain ⟨hnl, hlnodup, hmem, hnext⟩ := hnext
  have hidleBlocked := h.idleBlocked
  have hidleThread := h.idleThread
  have hidleRetry : q.status idleTid = .blocked → q.retries idleTid = none := by
    intro hb
    simp [retries, (hidleBlocked hb).2, Instr.retries]
  constructor
  case running => grind
  case unique =>
    have := h.unique
    grind
  case fresh =>
    have := h.fresh
    have := h.idleExists
    grind
  case ready => grind
  case readyNodup => exact hlnodup
  case waitersNodup => exact h.waitersNodup
  case sleepNodup => exact h.sleepNodup
  case idleCode => exact h.idleCode
  case idleThread => exact h.idleThread
  case belongs => exact h.belongs
  case creator => exact h.creator
  case waiters =>
    have := h.waiters
    simp only [retries] at this hidleRetry ⊢
    grind
  case sleep =>
    have := h.sleep
    grind
  case created =>
    have := h.created
    grind
  case idleBlocked => grind
  case idleExists =>
    have := h.idleExists
    grind

/-- A thread is created. -/
theorem Ok.create (h : q.Ok) {c : List Instr} (hcreate : ∀ t, c.count (.createUnblock t) =
      (q.code q.current).count (.createUnblock t) + if t = q.threadCnt then 1 else 0)
    (hidle : q.current ≠ idleTid)
    (hbelongs : ∀ i ∈ c, i ∈ q.code q.current ∨ i.belongs q.idleThread q.current) :
    Ok { q with
      threadCnt := q.threadCnt + 1
      status := update q.status q.threadCnt .blocked
      code := update (update q.code q.threadCnt [.intrOn]) q.current c } := by
  have hrun := h.running
  have hfresh := h.fresh
  have hcur : q.current ≠ q.threadCnt := by grind
  have hmem : ∀ t, Instr.createUnblock t ∈ c ↔
      .createUnblock t ∈ q.code q.current ∨ t = q.threadCnt := by
    intro t
    have := hcreate t
    rw [← List.count_pos_iff, ← List.count_pos_iff, this]
    by_cases ht : t = q.threadCnt <;> simp [ht]
  have hcreated := h.created
  constructor
  case running => grind
  case unique =>
    have := h.unique
    grind
  case fresh => grind
  case ready =>
    have := h.ready
    grind
  case readyNodup => exact h.readyNodup
  case waitersNodup => exact h.waitersNodup
  case sleepNodup => exact h.sleepNodup
  case waiters =>
    have := h.waiters
    simp only [retries] at this ⊢
    grind [Instr.retries]
  case sleep =>
    have := h.sleep
    grind
  case created => grind
  case creator =>
    have := h.creator
    grind
  case idleCode =>
    have := h.idleCode
    have := h.idleExists
    grind
  case idleThread => exact h.idleThread
  case belongs =>
    have := h.belongs
    grind [Instr.belongs]
  case idleBlocked =>
    have := h.idleBlocked
    have := h.idleExists
    grind
  case idleExists =>
    have := h.idleExists
    grind

/-- `idle` makes itself known. -/
theorem Ok.setIdle (h : q.Ok) (hcur : q.current = idleTid) :
    Ok { q with idleThread := some idleTid } := by
  have hrun := h.running
  refine { h with ready := ?_, idleBlocked := ?_, idleThread := ?_, belongs := ?_ }
  · have := h.ready
    have := h.idleThread
    grind
  · grind
  · grind
  · intro t i hi
    have hb := h.belongs t i hi
    have hsame : q.idleThread = some t → some idleTid = some t :=
      fun ht => congrArg some (h.idleThread t ht).symm
    cases i with
    | idleBlock | idleHlt => exact hsame hb
    | semaDown m | semaRetry m => cases m <;> exact hb
    | _ => exact hb


/-- The ready list is rearranged. -/
theorem Ok.permute (h : q.Ok) (hl : l.Perm q.readyList) :
    Ok { q with readyList := l } :=
  { h with
    ready := fun t => by rw [hl.mem_iff]; exact h.ready t
    readyNodup := hl.nodup_iff.mpr h.readyNodup }

/-- A waiter of a semaphore becomes ready. -/
theorem Ok.wakeWaiter (h : q.Ok) {t : Tid} (ht : t ∈ q.waiters m) (hl : l.Perm (t :: q.readyList)) :
    Ok { q with
      status := update q.status t .ready
      readyList := l
      waiters := update q.waiters m ((q.waiters m).erase t) } := by
  obtain ⟨hb, hr⟩ := (h.waiters m t).mp ht
  have hw := h.waiters
  have hs := h.sleep
  have hidle := h.idleBlocked
  have hcreated := h.created
  have hsleep : t ∉ q.sleepList := by
    simp only [retries] at hr
    grind [Instr.retries]
  refine h.wake hb ?_ ?_ hl ?_ ?_ ?_ h.sleepNodup
  · simp only [retries] at hr
    grind [Instr.retries]
  · simp only [retries] at hr
    grind [Instr.retries]
  · intro n u
    by_cases hn : n = m
    · subst hn
      rw [update_self, (h.waitersNodup n).mem_erase_iff, and_comm]
    · rw [update_of_ne hn]
      grind
  · intro n
    by_cases hn : n = m
    · subst hn
      rw [update_self]
      exact (h.waitersNodup n).erase t
    · rw [update_of_ne hn]
      exact h.waitersNodup n
  · grind

/-- A blocked thread that no list has becomes ready. -/
theorem Ok.wakeUnlisted (h : q.Ok) {t : Tid} (hb : q.status t = .blocked)
    (hhead : (q.code t).head? = some .afterBlock ∨
      (q.code t).head? = some .intrOn ∧ ∀ c, .createUnblock t ∉ q.code c)
    (hl : l.Perm (t :: q.readyList)) :
    Ok { q with status := update q.status t .ready, readyList := l } := by
  have hw := h.waiters
  have hs := h.sleep
  have hidle := h.idleBlocked
  have hcreated := h.created
  refine h.wake hb ?_ ?_ hl ?_ h.waitersNodup ?_ h.sleepNodup
  · grind
  · grind
  · simp only [retries] at hw
    grind [Instr.retries]
  · grind

/-- The first sleeper becomes ready. -/
theorem Ok.wakeSleeper (h : q.Ok) {t : Tid} (ht : q.sleepList = t :: d)
    (hl : l.Perm (t :: q.readyList)) :
    Ok { q with
      status := update q.status t .ready
      readyList := l
      sleepList := d } := by
  have hw := h.waiters
  have hs := h.sleep
  have hsn := h.sleepNodup
  have hidle := h.idleBlocked
  have hcreated := h.created
  obtain ⟨hb, hhead⟩ := (hs t).mp (by simp [ht])
  rw [ht, List.nodup_cons] at hsn
  refine h.wake hb ?_ ?_ hl ?_ h.waitersNodup ?_ hsn.2
  · grind
  · grind
  · simp only [retries] at hw
    grind [Instr.retries]
  · grind

end Queues

/-! ## The machine keeps the queues -/

section

variable {s s' : State} {t : Tid} {i : Instr} {rest : List Instr}

/-- The state in which an instruction is executed. -/
def State.pop (s : State) (rest : List Instr) : State :=
  { s with code := update s.code s.current rest }

theorem State.pop_push (l : List Instr) :
    (s.pop rest).push l = { s with code := update s.code s.current (l ++ rest) } := by
  simp [State.pop, State.push]

theorem schedule_eq (h : schedule s = some s') :
    ∃ n l, s.queues.Next n l ∧ s' =
      { s with
        readyList := l
        current := n
        status := update s.status n .running
        threadTicks := 0 } := by
  obtain ⟨⟨n, l⟩, hn, rfl⟩ := Option.map_eq_some_iff.mp h
  refine ⟨n, l, ?_, rfl⟩
  simp only [nextThreadToRun] at hn
  split at hn
  · rename_i hnil
    obtain ⟨u, hu, heq⟩ := Option.map_eq_some_iff.mp hn
    cases heq
    exact Or.inr ⟨hnil, rfl, hu⟩
  · rename_i hcons
    cases hn
    exact Or.inl hcons

theorem threadUnblock_eq (h : threadUnblock s t = some s') :
    s.status t = .blocked ∧ s' = (readyInsert s t).setStatus t .ready := by
  simp only [threadUnblock] at h
  split at h
  · exact ⟨‹_›, (Option.some.inj h).symm⟩
  · cases h

theorem readyInsert_perm (s : State) (t : Tid) :
    (readyInsert s t).readyList.Perm (t :: s.readyList) := List.perm_orderedInsert ..

theorem setPriority_perm (h : s.queues.Ok) (p : Int) (hidle : t ≠ idleTid) :
    (setPriority s t p).readyList.Perm s.readyList := by
  simp only [setPriority]
  split
  · rename_i hr
    have hmem : t ∈ s.readyList := (h.ready t).mpr ⟨hr, fun ht => hidle (h.idleThread t ht)⟩
    exact (readyInsert_perm _ t).trans (List.perm_cons_erase hmem).symm
  · exact .refl _

/-- What `setPriority` does to the queues. -/
theorem setPriority_queues (s : State) (t : Tid) (p : Int) : (setPriority s t p).queues =
      { s.queues with readyList := (setPriority s t p).readyList } := by
  simp only [setPriority]
  split <;> rfl

theorem Queues.Ok.setPriority (h : s.queues.Ok) (p : Int) (hidle : t ≠ idleTid) :
    (setPriority s t p).queues.Ok := by
  rw [setPriority_queues]
  exact h.permute (setPriority_perm h p hidle)

/-- An instruction is replaced by those it pushes. -/
theorem IdleCode.advance {l : List Instr} (h : IdleCode (i :: rest)) (hl : ∀ x ∈ l, x.ofIdle = true)
    (hend : i.endsIdle = true → ∃ x, l.getLast? = some x ∧ x.endsIdle = true) :
    IdleCode (l ++ rest) := by
  obtain ⟨hall, x, hlast, hx⟩ := h
  refine ⟨?_, ?_⟩
  · intro y hy
    rcases List.mem_append.mp hy with hy | hy
    · exact hl y hy
    · exact hall y (List.mem_cons_of_mem _ hy)
  · rw [List.getLast?_append]
    cases rest with
    | nil =>
      simp only [List.getLast?_singleton, Option.some.injEq] at hlast
      subst hlast
      simpa using hend hx
    | cons y ys =>
      rw [List.getLast?_cons_cons] at hlast
      exact ⟨x, by simp [hlast], hx⟩

theorem Queues.Ok.pop (h : s.queues.Ok) (hcode : s.code s.current = i :: rest)
    (hi : i.endsIdle = false) : (s.pop rest).queues.Ok := by
  refine h.recode rest (fun t => ?_) (fun hcur => ?_) (fun x hx => Or.inl ?_)
  · show _ ≤ (s.code s.current).count _
    rw [hcode, List.count_cons]
    omega
  · have hic : IdleCode (i :: rest) := by
      rw [← hcode, show s.current = idleTid from hcur]
      exact h.idleCode
    exact hic.advance (l := []) (by simp) (by simp [hi])
  · show x ∈ s.code s.current
    rw [hcode]
    exact List.mem_cons_of_mem _ hx

theorem Queues.Ok.push (h : s.queues.Ok) {l : List Instr} (hl : ∀ t, .createUnblock t ∉ l)
    (hidle : s.current = idleTid → ∀ x ∈ l, x.ofIdle = true)
    (hbelongs : ∀ x ∈ l, x.belongs s.idleThread s.current) : (s.push l).queues.Ok := by
  refine h.recode (l ++ s.code s.current) (fun t => ?_) (fun hcur => ?_) (fun x hx => ?_)
  · show _ ≤ (s.code s.current).count _
    rw [List.count_append, List.count_eq_zero.mpr (hl t)]
    omega
  · obtain ⟨hall, x, hlast, hx⟩ : IdleCode (s.code s.current) := by
      rw [show s.current = idleTid from hcur]
      exact h.idleCode
    refine ⟨?_, x, by simp [List.getLast?_append, hlast], hx⟩
    intro y hy
    rcases List.mem_append.mp hy with hy | hy
    · exact hidle hcur y hy
    · exact hall y hy
  · rcases List.mem_append.mp hx with hx | hx
    · exact Or.inr (hbelongs x hx)
    · exact Or.inl hx

/-- An instruction that is not the idle thread's is executed by another thread. -/
theorem Queues.Ok.not_idle (h : s.queues.Ok) (hcode : s.code s.current = i :: rest)
    (hi : i.ofIdle = false) : s.current ≠ idleTid := by
  intro hcur
  have hic := h.idleCode.1
  rw [← hcur, show s.queues.code s.current = i :: rest from hcode] at hic
  simp [hi] at hic

/-- The current thread blocks, and will continue with `x`. -/
theorem Queues.Ok.threadBlock (h : s.queues.Ok) {x : Instr} (hcreate : ∀ t, x ≠ .createUnblock t)
    (hidle : s.current = idleTid → s.idleThread = some idleTid ∧ x = .idleHlt)
    (hbelongs : x.belongs s.idleThread s.current)
    (hw : ∀ m u, u ∈ w m ↔ u ∈ s.waiters m ∨ u = s.current ∧ x.retries = some m)
    (hwn : ∀ m, (w m).Nodup)
    (hs : ∀ u, u ∈ d ↔ u ∈ s.sleepList ∨ u = s.current ∧ x = .afterSleep) (hsn : d.Nodup)
    (hn : Threads.threadBlock ({ s with waiters := w, sleepList := d }.push [x]) = some s') :
    s'.queues.Ok := by
  obtain ⟨n, l, hnext, rfl⟩ := schedule_eq hn
  refine h.block (c := x :: s.code s.current) hnext ?_ ?_ ?_ hw hwn
    (fun u => (hs u).trans (by simp [State.queues])) hsn
  · intro t
    show _ ≤ (s.code s.current).count _
    simp [hcreate t]
  · intro hcur
    obtain ⟨hi, rfl⟩ := hidle hcur
    obtain ⟨hall, y, hlast, hy⟩ : IdleCode (s.code s.current) := by
      rw [show s.current = idleTid from hcur]
      exact h.idleCode
    refine ⟨hi, rfl, ?_, y, ?_, hy⟩
    · intro z hz
      rcases List.mem_cons.mp hz with rfl | hz
      · rfl
      · exact hall z hz
    · cases hc : s.code s.current with
      | nil => simp [hc] at hlast
      | cons z zs =>
        rw [List.getLast?_cons_cons]
        rw [hc] at hlast
        exact hlast
  · intro z hz
    rcases List.mem_cons.mp hz with rfl | hz
    · exact Or.inr hbelongs
    · exact Or.inl hz

/-- The current thread waits for a semaphore. -/
theorem Queues.Ok.wait (h : s.queues.Ok) {retry : Instr}
    (hretry : retry.retries = some m) (hcur : s.current ≠ idleTid)
    (hbelongs : retry.belongs s.idleThread s.current)
    (hn : Threads.threadBlock ((s.setWaiters m
      ((s.waiters m).orderedInsert (threadCmp s) s.current)).push [retry]) = some s') :
    s'.queues.Ok := by
  have hwait : s.current ∉ s.waiters m := by
    intro hmem
    have hb := ((h.waiters m _).mp hmem).1
    rw [show s.queues.status s.current = .running from h.running] at hb
    cases hb
  refine h.threadBlock (w := update s.waiters m _) (d := s.sleepList) ?_
    (fun hc => absurd hc hcur) hbelongs ?_ ?_ ?_ h.sleepNodup hn
  · rintro t rfl
    cases hretry
  · intro m' u
    by_cases hm : m' = m
    · subst hm
      simp [List.mem_orderedInsert, hretry, or_comm]
    · simp [update_of_ne hm, hretry, Ne.symm hm]
  · intro m'
    by_cases hm : m' = m
    · subst hm
      rw [update_self, (List.perm_orderedInsert ..).nodup_iff]
      exact List.nodup_cons.mpr ⟨hwait, h.waitersNodup m'⟩
    · rw [update_of_ne hm]
      exact h.waitersNodup m'
  · intro u
    refine ⟨Or.inl, ?_⟩
    rintro (hu | ⟨-, rfl⟩)
    · exact hu
    · cases hretry

theorem Queues.Ok.threadYield (h : s.queues.Ok) (hn : Threads.threadYield s = some s') :
    s'.queues.Ok := by
  simp only [Threads.threadYield] at hn
  obtain ⟨n, l, hnext, rfl⟩ := schedule_eq hn
  by_cases hidle : s.idleThread = some s.current
  · rw [if_pos hidle] at hnext
    have hok := h.yield (Or.inl ⟨hidle, rfl⟩) hnext
    convert hok using 1
    simp [State.queues, State.setStatus, hidle]
  · rw [if_neg hidle] at hnext
    have hok := h.yield (Or.inr ⟨hidle, readyInsert_perm s s.current⟩) hnext
    convert hok using 1
    simp [State.queues, State.setStatus, hidle, readyInsert]

/-- `sema_up` wakes a waiter of maximal priority, if there is one. -/
theorem semaWake_cases {o : Option Tid} (h : semaWake s m = some (s', o)) :
    s.waiters m = [] ∧ o = none ∧ s' = s.setValue m ((s.value m + 1) % 2 ^ 32) ∨
      ∃ t, t ∈ s.waiters m ∧ (∀ u ∈ s.waiters m, s.priority u ≤ s.priority t) ∧ o = some t ∧
        s.status t = .blocked ∧
        s' = (readyInsert ((s.setValue m ((s.value m + 1) % 2 ^ 32)).setWaiters m
          ((s.waiters m).erase t)) t).setStatus t .ready := by
  simp only [semaWake] at h
  split at h
  · rename_i hnone
    cases h
    exact Or.inl ⟨Base.listMax_eq_none hnone, rfl, rfl⟩
  · rename_i t ht
    obtain ⟨s₁, hs₁, heq⟩ := Option.map_eq_some_iff.mp h
    cases heq
    obtain ⟨hb, rfl⟩ := threadUnblock_eq hs₁
    have hless := threadPriorityLess_iff (s.setValue m ((s.value m + 1) % 2 ^ 32))
    exact Or.inr ⟨t, Base.listMax_mem hless ht, fun u hu => Base.le_of_listMax hless ht hu, rfl, hb,
      rfl⟩

theorem Queues.Ok.semaWake (h : s.queues.Ok) {o : Option Tid}
    (hn : Threads.semaWake s m = some (s', o)) : s'.queues.Ok := by
  rcases semaWake_cases hn with ⟨-, -, rfl⟩ | ⟨t, ht, -, -, -, rfl⟩
  · exact h
  · exact h.wakeWaiter ht (List.perm_orderedInsert ..)

end

end Pintos.Threads
