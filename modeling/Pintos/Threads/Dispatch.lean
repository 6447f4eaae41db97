/-
  Pintos.Threads.Dispatch

  What one instruction does to the threads as the scheduler and the timer see
  them: it leaves them alone, blocks the current thread or lets it yield, makes
  one thread ready, changes one priority, or creates a thread.  What is proved
  about the ready list, the sleep list and switches is derived from these cases.
-/

import Pintos.Threads.Effect

namespace Pintos.Threads

open Function

variable {s s' : State} {i : Instr}

/-- The part of the state that belongs to the scheduler and the timer. -/
structure Sched where
  threadCnt : Nat
  current : Tid
  readyList : List Tid
  priority : Tid → Int
  sleepList : List Tid
  wakeupTick : Tid → Int
  ticks : Int

def State.sched (s : State) : Sched :=
  ⟨s.threadCnt, s.current, s.readyList, s.priority, s.sleepList, s.wakeupTick, s.ticks⟩

/-- The instructions that can switch to another thread. -/
def Instr.switches : Instr → Bool
  | .yield | .block | .idleBlock | .sleep _ | .semaDown _ | .semaRetry _ | .lockDown _
  | .lockRetry _ => true
  | _ => false

/-- Thread `u` becomes ready by instruction `i`. -/
inductive Readied (s s' : State) (u : Tid) : Instr → Prop
  | create : Readied s s' u (.createUnblock u)
  | unblock : Readied s s' u (.unblock u)
  | sleeper (h : s.sleepList.head? = some u) (hle : s.wakeupTick u ≤ s.ticks) :
    Readied s s' u .timerWake
  | handler (m : SemaId) (h : u ∈ s.waiters m) : Readied s s' u (.intrSemaUp m)
  | up (m : SemaId) (h : (s'.code s.current).head? = some (.upTest u)) (hw : u ∈ s.waiters m) :
    Readied s s' u (.semaUp m)

inductive Dispatch (s s' : State) : Instr → Prop
  | keep {i : Instr} (hi : i ≠ .yield) (h : s'.sched = s.sched) : Dispatch s s' i
  | tick (h : s'.sched = { s.sched with ticks := s.ticks + 1 }) : Dispatch s s' .timerTick
  /-- `z` is the state in which `thread_block` is called. -/
  | block {i : Instr} {z : State} (hi : i.switches = true) (hz : z.sched = s.sched)
    (hlevel : z.intr = false ∨ z.intr = s.intr ∧ ∃ l, i = .lockDown l ∨ i = .lockRetry l)
    (hn : threadBlock z = some s') : Dispatch s s' i
  | sleep (n : Int) {z : State} (hz : z.sched = { s.sched with
        wakeupTick := update s.wakeupTick s.current (s.ticks + n)
        sleepList := s.sleepList.orderedInsert (fun a b =>
          update s.wakeupTick s.current (s.ticks + n) a <
            update s.wakeupTick s.current (s.ticks + n) b) s.current })
    (hlevel : z.intr = false) (hn : threadBlock z = some s') : Dispatch s s' (.sleep n)
  | yield (hn : threadYield { s with intr := false } = some s') : Dispatch s s' .yield
  | wake {i : Instr} (t : Tid) (hi : Readied s s' t i) (h : s'.sched = { s.sched with
      readyList := (readyInsert s t).readyList
      sleepList := if i = .timerWake then s.sleepList.tail else s.sleepList }) : Dispatch s s' i
  | prioritise {i : Instr} (t : Tid) (p : Int) (hi : i ≠ .yield)
    (ht : t = s.current ∨ ∃ l, s.holder l = some t) (h : s'.sched = (setPriority s t p).sched) :
    Dispatch s s' i
  | create (p : Int) (h : s'.sched = { s.sched with
      threadCnt := s.threadCnt + 1
      priority := update s.priority s.threadCnt p }) : Dispatch s s' (.create p)

/-- A switch changes the current thread and the ready list. -/
theorem schedule_sched (h : schedule s = some s') :
    s'.sched = { s.sched with current := s'.current, readyList := s'.readyList } := by
  obtain ⟨_, _, _, rfl⟩ := schedule_eq h
  rfl

theorem threadYield_sched (h : threadYield s = some s') :
    s'.sched = { s.sched with current := s'.current, readyList := s'.readyList } := by
  rw [schedule_sched h]
  split <;> rfl

theorem setPriority_sched (s : State) (t : Tid) (p : Int) :
    (setPriority s t p).sched = { s.sched with
      priority := update s.priority t p
      readyList := if s.status t = .ready then (s.readyList.erase t).orderedInsert
        (threadCmp { s with priority := update s.priority t p }) t else s.readyList } := by
  simp only [setPriority]
  split <;> rfl

/-- `thread_update_priority` of the current thread, in a state `z` that is the
    same to the scheduler. -/
theorem Dispatch.update (z : State) (hi : i ≠ .yield) (hz : z.sched = s.sched)
    (hset : ∀ p, (setPriority z s.current p).sched = (setPriority s s.current p).sched)
    (h : s'.sched = (threadUpdatePriority z s.current).sched) : Dispatch s s' i := by
  simp only [threadUpdatePriority] at h
  split at h
  · exact .prioritise s.current _ hi (Or.inl rfl) (h.trans (hset _))
  · exact .keep hi (h.trans hz)

theorem exec_dispatch (hn : exec s i = some s') : Dispatch s s' i := by
  cases i with
  | yield => exact .yield hn
  | block | idleBlock =>
    refine .block rfl ?_ (Or.inl ?_) hn <;> rfl
  | sleep n =>
    refine .sleep n ?_ ?_ hn <;> rfl
  | semaDown m | semaRetry m =>
    simp only [exec] at hn
    rcases semaTake_cases hn with ⟨-, hn⟩ | ⟨-, rfl⟩
    · refine .block rfl ?_ (Or.inl ?_) hn <;> rfl
    · exact .keep (by simp) rfl
  | lockDown l | lockRetry l =>
    simp only [exec] at hn
    rcases semaTake_cases hn with ⟨-, hn⟩ | ⟨-, rfl⟩
    · refine .block rfl ?_ (Or.inr ⟨?_, l, by simp⟩) hn <;> rfl
    · exact .keep (by simp) rfl
  | unblock t =>
    simp only [exec] at hn
    split at hn
    · obtain ⟨-, rfl⟩ := threadUnblock_eq hn
      exact .wake t .unblock rfl
    · cases hn
  | createUnblock t =>
    obtain ⟨-, rfl⟩ := threadUnblock_eq hn
    exact .wake t .create rfl
  | timerWake =>
    simp only [exec] at hn
    split at hn
    · cases hn
      exact .keep (by simp) rfl
    · rename_i t l hl
      split at hn
      · cases hn
        exact .keep (by simp) rfl
      · rename_i hle
        obtain ⟨s₁, hs₁, rfl⟩ := Option.map_eq_some_iff.mp hn
        obtain ⟨-, rfl⟩ := threadUnblock_eq hs₁
        refine .wake t (.sleeper (by rw [hl]; rfl) (not_lt.mp hle)) ?_
        rw [if_pos rfl, hl]
        rfl
  | semaUp m =>
    obtain ⟨⟨s₁, o⟩, hw, rfl⟩ := Option.map_eq_some_iff.mp hn
    rcases semaWake_cases hw with ⟨-, rfl, rfl⟩ | ⟨t, ht, -, rfl, -, rfl⟩
    · exact .keep (by simp) rfl
    · refine .wake t (.up m ?_ ht) rfl
      simp [State.push, readyInsert, State.setStatus, State.setValue, State.setWaiters]
  | intrSemaUp m =>
    obtain ⟨⟨s₁, o⟩, hw, rfl⟩ := Option.map_eq_some_iff.mp hn
    rcases semaWake_cases hw with ⟨-, rfl, rfl⟩ | ⟨t, ht, -, rfl, -, rfl⟩
    · exact .keep (by simp) rfl
    · exact .wake t (.handler m ht) rfl
  | updatePriority =>
    cases hn
    exact .update s (by simp) rfl (fun _ => rfl) rfl
  | release l =>
    simp only [exec] at hn
    split at hn <;> cases hn
    refine .update { donorsKept s l with holder := update s.holder l none } (by simp) rfl
      (fun p => ?_) rfl
    simp only [setPriority_sched]
    rfl
  | propagate l depth =>
    have hround : (propagateRound s l depth).1.sched = s.sched ∨
        ∃ t p, (∃ k, s.holder k = some t) ∧
          (propagateRound s l depth).1.sched = (setPriority s t p).sched := by
      simp only [propagateRound]
      repeat' split
      all_goals first | exact Or.inl rfl | exact Or.inr ⟨_, _, ⟨_, ‹_›⟩, rfl⟩
    have hs' : s'.sched = (propagateRound s l depth).1.sched := by
      simp only [exec] at hn
      split at hn <;> cases hn <;> rfl
    rcases hround with h | ⟨t, p, ht, h⟩
    · exact .keep (by simp) (hs'.trans h)
    · exact .prioritise t p (by simp) (Or.inr ht) (hs'.trans h)
  | semaTryDown m | intrReturn =>
    cases hn
    split <;> exact .keep (by simp) rfl
  | timerTick =>
    cases hn
    exact .tick rfl
  | create p =>
    simp only [exec] at hn
    split at hn <;> cases hn
    exact .create p rfl
  | setTest | createTest | upTest | acquire | tryAcquire | condPush | condSignal | condScan
  | condBroadcast =>
    simp only [exec] at hn
    repeat' split at hn
    all_goals cases hn
    all_goals exact .keep (by simp) rfl
  | _ =>
    cases hn
    exact .keep (by simp) rfl

theorem exec_threadCnt (hn : exec s i = some s') : s.threadCnt ≤ s'.threadCnt := by
  have hblock : ∀ {z : State}, z.threadCnt = s.threadCnt → threadBlock z = some s' →
      s.threadCnt ≤ s'.threadCnt := fun hz hn =>
    ((congrArg Sched.threadCnt (schedule_sched hn)).trans hz).ge
  cases exec_dispatch hn with
  | keep _ h | tick h | wake _ _ h => exact (congrArg Sched.threadCnt h).ge
  | block _ hz _ hb | sleep _ hz _ hb => exact hblock (congrArg Sched.threadCnt hz) hb
  | yield hy => exact (congrArg Sched.threadCnt (threadYield_sched hy)).ge
  | prioritise t p _ _ h =>
    rw [setPriority_sched] at h
    exact (congrArg Sched.threadCnt h).ge
  | create p h => exact (Nat.le_succ _).trans (congrArg Sched.threadCnt h).ge

end Pintos.Threads
