/-
  Pintos.Threads.Frame

  What the scheduler leaves alone: `schedule`, `thread_unblock` and a change of
  priority touch the status of threads, the ready list and the current thread,
  and nothing of semaphores, locks and conditions.
-/

import Pintos.Threads.Queues

namespace Pintos.Threads

open Function

/-- The part of the state that belongs to threads/synch.c, with the code of the
    threads and the interrupt level. -/
structure Sync where
  priority : Tid → Int
  originalPriority : Tid → Int
  donorThreads : Tid → List Tid
  blockingLock : Tid → Option LockId
  code : Tid → List Instr
  value : SemaId → Nat
  waiters : SemaId → List Tid
  holder : LockId → Option Tid
  condWaiters : CondId → List Tid
  intr : Bool
  inIntr : Bool
  yieldOnReturn : Bool

def State.sync (s : State) : Sync :=
  ⟨s.priority, s.originalPriority, s.donorThreads, s.blockingLock, s.code, s.value, s.waiters,
    s.holder, s.condWaiters, s.intr, s.inIntr, s.yieldOnReturn⟩

section

variable {s s' : State} {t : Tid}

theorem schedule_sync (h : schedule s = some s') : s'.sync = s.sync := by
  obtain ⟨_, _, _, rfl⟩ := schedule_eq h
  rfl

theorem threadBlock_sync (h : threadBlock s = some s') : s'.sync = s.sync := by
  rw [schedule_sync h]
  rfl

theorem threadYield_sync (h : threadYield s = some s') : s'.sync = s.sync := by
  rw [schedule_sync h]
  split <;> rfl

theorem threadUnblock_sync (h : threadUnblock s t = some s') : s'.sync = s.sync := by
  obtain ⟨-, rfl⟩ := threadUnblock_eq h
  rfl

theorem setPriority_sync (s : State) (t : Tid) (p : Int) :
    (setPriority s t p).sync = { s.sync with priority := update s.priority t p } := by
  simp only [setPriority]
  split <;> rfl

theorem threadUpdatePriority_sync (s : State) (t : Tid) : (threadUpdatePriority s t).sync =
      { s.sync with priority := update s.priority t (maxPriority s t) } := by
  simp only [threadUpdatePriority]
  split
  · exact setPriority_sync ..
  · rename_i heq
    rw [← not_not.mp heq, update_eq_self]
    rfl

theorem threadUpdatePriority_current (s : State) (t : Tid) :
    (threadUpdatePriority s t).current = s.current := by
  simp only [threadUpdatePriority]
  split
  · exact congrArg Queues.current (setPriority_queues ..)
  · rfl

theorem semaTake_cases {m : SemaId} {retry : Instr} {k : State → State}
    (h : semaTake s m retry k = some s') :
    s.value m = 0 ∧ threadBlock ((s.setWaiters m
      ((s.waiters m).orderedInsert (threadCmp s) s.current)).push [retry]) = some s' ∨
      s.value m ≠ 0 ∧ s' = k (s.setValue m (s.value m - 1)) := by
  simp only [semaTake] at h
  split at h
  · exact Or.inl ⟨‹_›, h⟩
  · exact Or.inr ⟨‹_›, (Option.some.inj h).symm⟩

/-! ## The priority `thread_update_priority` computes -/

theorem le_maxPriority_original (s : State) (t : Tid) : s.originalPriority t ≤ maxPriority s t := by
  simp only [maxPriority]
  split
  · exact le_rfl
  · split
    · exact le_of_lt ‹_›
    · exact le_rfl

theorem le_maxPriority_donor {t d : Tid} (hd : d ∈ s.donorThreads t) :
    s.priority d ≤ maxPriority s t := by
  simp only [maxPriority]
  split
  · rename_i hnone
    rw [Base.listMax_eq_none hnone] at hd
    cases hd
  · rename_i m hm
    have hle := Base.le_of_listMax (threadPriorityLess_iff s) hm hd
    split
    · exact hle
    · rename_i hgt
      exact hle.trans (not_lt.mp hgt)

theorem maxPriority_cases (s : State) (t : Tid) :
    maxPriority s t = s.originalPriority t ∨
      ∃ d ∈ s.donorThreads t, maxPriority s t = s.priority d := by
  simp only [maxPriority]
  split
  · exact Or.inl rfl
  · rename_i d hd
    split
    · exact Or.inr ⟨d, Base.listMax_mem (threadPriorityLess_iff s) hd, rfl⟩
    · exact Or.inl rfl

end

end Pintos.Threads
