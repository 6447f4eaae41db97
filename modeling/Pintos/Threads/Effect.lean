/-
  Pintos.Threads.Effect

  What one instruction does to semaphores, locks, conditions and the code of the
  threads.  Most instructions only go on with other ones, at another interrupt
  level; the rest is one case each.  The invariants of locks, semaphores,
  conditions and donation are derived from these cases, not from `exec`.
-/

import Pintos.Threads.Frame

namespace Pintos.Threads

open Function

/-- An instruction that goes on with the instructions `l`, at another interrupt
    level or at the same one, and does nothing else here. -/
inductive Quiet (s : State) : Instr → List Instr → Option Bool → Prop
  | intrOn : Quiet s .intrOn [] (some true)
  | yield : Quiet s .yield [] (some false)
  | block : Quiet s .block [.afterBlock] (some false)
  | afterBlock : Quiet s .afterBlock [] (some true)
  | unblock (t : Tid) : Quiet s (.unblock t) [] none
  | propagateOwn :
    Quiet s .propagateOwn [.propagate (s.blockingLock s.current) 0, .intrOn] (some false)
  | propagateEnd (l : Option LockId) (depth : Nat) (h : propagateRound s l depth = (s, none)) :
    Quiet s (.propagate l depth) [] none
  | setKept (h : ∀ t ∈ s.readyList.head?, s.priority t ≤ s.priority s.current) :
    Quiet s .setTest [] none
  | setYield : Quiet s .setTest [.yield, .intrOn] none
  | createUnblock (t : Tid) : Quiet s (.createUnblock t) [] none
  | createKept (t : Tid) (h : s.priority t ≤ s.priority s.current) :
    Quiet s (.createTest t) [] none
  | createYield (t : Tid) : Quiet s (.createTest t) [.yield, .intrOn] none
  | idleStart : Quiet s .idleStart [.semaUp .idleStarted, .idleBlock] none
  | idleBlock : Quiet s .idleBlock [.idleHlt] (some false)
  | idleHlt : Quiet s .idleHlt [.idleBlock] (some true)
  | tryFails (m : SemaId) (h : s.value m = 0) : Quiet s (.semaTryDown m) [] none
  | upKept (t : Tid) (h : s.priority t ≤ s.priority s.current) : Quiet s (.upTest t) [] (some true)
  | upYield (t : Tid) : Quiet s (.upTest t) [.yield, .intrOn] none
  | acquireFree (l : LockId) (h : s.holder l = none) :
    Quiet s (.acquire l) [.lockDown l] (some false)
  | lockFails (l : LockId) (h : s.value (.lock l) = 0) : Quiet s (.tryAcquire l) [] none
  | signalNone (c : CondId) (l : LockId) (h : s.condWaiters c = []) :
    Quiet s (.condSignal c l) [] none
  | signal (c : CondId) (l : LockId) (w : Tid) (ws : List Tid) (h : s.condWaiters c = w :: ws) :
    Quiet s (.condSignal c l) [.condScan c w ws] none
  | scanned (c : CondId) (w : Tid) :
    Quiet s (.condScan c w []) [.semaUp (.waiter w), .condRemove c w] none
  | scan (c : CondId) (max w : Tid) (ws : List Tid) (a b : Tid)
    (ha : (s.waiters (.waiter max)).head? = some a) (hb : (s.waiters (.waiter w)).head? = some b) :
    Quiet s (.condScan c max (w :: ws))
      [.condScan c (if s.priority a < s.priority b then w else max) ws] none
  | broadcastNone (c : CondId) (l : LockId) (h : s.condWaiters c = []) :
    Quiet s (.condBroadcast c l) [] none
  | broadcast (c : CondId) (l : LockId) (h : s.condWaiters c ≠ []) :
    Quiet s (.condBroadcast c l) [.condSignal c l, .condBroadcast c l] none
  | sleep (n : Int) : Quiet s (.sleep n) [.afterSleep] (some false)
  | afterSleep : Quiet s .afterSleep [] (some true)
  | timerWoken : Quiet s .timerWake [] none
  | timerWake : Quiet s .timerWake [.timerWake] none

/-- `lock_release` takes the threads that wait for the lock off the donor list. -/
def donorsKept (s : State) (l : LockId) : State :=
  { s with
    donorThreads := update s.donorThreads s.current
      ((s.donorThreads s.current).filter fun d => s.blockingLock d ≠ some l) }

/-- The result of an instruction that has been taken off the list of the current
    thread. -/
inductive Effect (s : State) : Instr → Sync → Prop
  | quiet {i : Instr} {l : List Instr} {b : Option Bool} (h : Quiet s i l b) :
    Effect s i { (s.push l).sync with intr := b.getD s.intr }
  | timerTick : Effect s .timerTick { (s.push [.timerWake]).sync with
      yieldOnReturn := s.yieldOnReturn || TIME_SLICE ≤ s.threadTicks + 1 }
  | intrReturn (h : s.yieldOnReturn = false) :
    Effect s .intrReturn { s.sync with inIntr := false, intr := true }
  | intrYield (h : s.yieldOnReturn = true) :
    Effect s .intrReturn { (s.push [.yield, .intrOn]).sync with inIntr := false }
  | setOriginal (p : Int) :
    Effect s (.setOriginal p)
      { s.sync with originalPriority := update s.originalPriority s.current p }
  | updatePriority : Effect s .updatePriority
      { s.sync with priority := update s.priority s.current (maxPriority s s.current) }
  | propagate (l : LockId) (depth : Nat) (h : Tid) (hdepth : depth < DONATION_DEPTH)
    (hholder : s.holder l = some h) (hlt : s.priority h < s.priority s.current) :
    Effect s (.propagate (some l) depth)
      { (s.push [.propagate (s.blockingLock h) (depth + 1)]).sync with
        priority := update s.priority h (s.priority s.current) }
  | create (p : Int) :
    Effect s (.create p) ((newThread s p).push
      [.acquire tidLock, .release tidLock, .createUnblock s.threadCnt,
        .createTest s.threadCnt]).sync
  | wait {i : Instr} (m : SemaId) (hi : i = .semaDown m ∨ i = .semaRetry m) (h : s.value m = 0) :
    Effect s i { (s.push [.semaRetry m]).sync with
      waiters := update s.waiters m
        ((s.waiters m).orderedInsert (threadCmp s) s.current)
      intr := false }
  | take {i : Instr} (m : SemaId) (hi : i = .semaDown m ∨ i = .semaRetry m) (h : s.value m ≠ 0) :
    Effect s i { (s.setValue m (s.value m - 1)).sync with intr := true }
  | tryDown (m : SemaId) (h : s.value m ≠ 0) :
    Effect s (.semaTryDown m) (s.setValue m (s.value m - 1)).sync
  | upNone {i : Instr} (m : SemaId) (hi : i = .semaUp m ∨ i = .intrSemaUp m)
    (h : s.waiters m = []) : Effect s i (s.setValue m ((s.value m + 1) % 2 ^ 32)).sync
  | up {i : Instr} (m : SemaId) (t : Tid) (l : List Instr)
    (hi : i = .semaUp m ∧ l = [.upTest t] ∨ i = .intrSemaUp m ∧ l = []) (ht : t ∈ s.waiters m)
    (hmax : ∀ u ∈ s.waiters m, s.priority u ≤ s.priority t) :
    Effect s i { (s.push l).sync with
      value := update s.value m ((s.value m + 1) % 2 ^ 32)
      waiters := update s.waiters m ((s.waiters m).erase t)
      intr := if l = [] then s.intr else false }
  | donate (l : LockId) (h : Tid) (hholder : s.holder l = some h) (hne : h ≠ s.current) :
    Effect s (.acquire l)
      { ((donate s l h).push [.propagate (some l) 0, .lockDown l]).sync with intr := false }
  | lockWait {i : Instr} (l : LockId) (hi : i = .lockDown l ∨ i = .lockRetry l)
    (h : s.value (.lock l) = 0) :
    Effect s i { (s.push [.lockRetry l]).sync with
      waiters := update s.waiters (.lock l)
        ((s.waiters (.lock l)).orderedInsert (threadCmp s) s.current) }
  | lockTake {i : Instr} (l : LockId) (hi : i = .lockDown l ∨ i = .lockRetry l)
    (h : s.value (.lock l) ≠ 0) :
    Effect s i (lockTaken (s.setValue (.lock l) (s.value (.lock l) - 1)) l).sync
  | tryAcquire (l : LockId) (hne : s.holder l ≠ some s.current) (h : s.value (.lock l) ≠ 0) :
    Effect s (.tryAcquire l)
      ((s.setValue (.lock l) (s.value (.lock l) - 1)).push [.trySet l]).sync
  | trySet (l : LockId) :
    Effect s (.trySet l) { s.sync with holder := update s.holder l (some s.current) }
  | release (l : LockId) (hholder : s.holder l = some s.current) :
    Effect s (.release l) { (s.push [.semaUp (.lock l)]).sync with
      donorThreads := (donorsKept s l).donorThreads
      holder := update s.holder l none
      priority := update s.priority s.current (maxPriority (donorsKept s l) s.current) }
  | condPush (c : CondId) (l : LockId) (hholder : s.holder l = some s.current) :
    Effect s (.condPush c l) { s.sync with
      value := update s.value (.waiter s.current) 0
      waiters := update s.waiters (.waiter s.current) []
      condWaiters := update s.condWaiters c (s.condWaiters c ++ [s.current]) }
  | condRemove (c : CondId) (w : Tid) :
    Effect s (.condRemove c w)
      { s.sync with condWaiters := update s.condWaiters c ((s.condWaiters c).erase w) }

section

variable {s s' : State} {i : Instr}

theorem State.push_nil (s : State) : s.push [] = s := by
  simp [State.push]

theorem State.push_sync {y : Sync} {cur : Tid} (l : List Instr) (hy : s.sync = y)
    (hcur : s.current = cur) :
    (s.push l).sync = { y with code := update y.code cur (l ++ y.code cur) } := by
  subst hy hcur
  rfl

theorem Effect.goOn {l : List Instr} (h : Quiet s i l none) : Effect s i (s.push l).sync :=
  .quiet h

theorem Effect.skip {b : Bool} (h : Quiet s i [] (some b)) :
    Effect s i { s.sync with intr := b } := by
  have := Effect.quiet h
  rwa [State.push_nil] at this

theorem Effect.stay (h : Quiet s i [] none) : Effect s i s.sync := by
  have := Effect.quiet h
  rwa [State.push_nil] at this

theorem propagate_effect {l : Option LockId} {depth : Nat}
    (hn : exec s (.propagate l depth) = some s') : Effect s (.propagate l depth) s'.sync := by
  have hend : propagateRound s l depth = (s, none) → Effect s (.propagate l depth) s'.sync := by
    intro hr
    simp only [exec, hr] at hn
    cases hn
    exact .stay (.propagateEnd l depth hr)
  cases l with
  | none => exact hend rfl
  | some l =>
    by_cases hdepth : depth < DONATION_DEPTH
    · cases hh : s.holder l with
      | none => exact hend (by simp [propagateRound, hh])
      | some h =>
        by_cases hlt : s.priority h < s.priority s.current
        · simp only [exec, propagateRound, hdepth, hh, hlt, if_true] at hn
          cases hn
          rw [State.push_sync _ (setPriority_sync ..)
            (congrArg Queues.current (setPriority_queues ..))]
          exact .propagate l depth h hdepth hh hlt
        · exact hend (by simp [propagateRound, hh, hlt])
    · exact hend (by simp [propagateRound, hdepth])

theorem exec_effect (hn : exec s i = some s') : Effect s i s'.sync := by
  cases i with
  | intrOn =>
    cases hn
    exact .skip .intrOn
  | yield =>
    rw [threadYield_sync hn]
    exact .skip .yield
  | block =>
    rw [threadBlock_sync hn]
    exact .quiet .block
  | afterBlock =>
    cases hn
    exact .skip .afterBlock
  | unblock t =>
    simp only [exec] at hn
    split at hn
    · rw [threadUnblock_sync hn]
      exact .stay (.unblock t)
    · cases hn
  | setOriginal p =>
    cases hn
    exact .setOriginal p
  | updatePriority =>
    cases hn
    rw [threadUpdatePriority_sync]
    exact .updatePriority
  | propagateOwn =>
    cases hn
    exact .quiet .propagateOwn
  | propagate l depth => exact propagate_effect hn
  | setTest =>
    simp only [exec] at hn
    split at hn
    · rename_i hnil
      cases hn
      exact .stay (.setKept (by simp [hnil]))
    · rename_i t l hl
      split at hn
      · cases hn
        exact .goOn .setYield
      · rename_i hle
        cases hn
        refine .stay (.setKept ?_)
        simpa [hl] using hle
  | create p =>
    simp only [exec] at hn
    split at hn
    · cases hn
      exact .create p
    · cases hn
  | createUnblock t =>
    rw [threadUnblock_sync hn]
    exact .stay (.createUnblock t)
  | createTest t =>
    simp only [exec] at hn
    split at hn
    · cases hn
      exact .goOn (.createYield t)
    · rename_i hle
      cases hn
      exact .stay (.createKept t (not_lt.mp hle))
  | idleStart =>
    cases hn
    exact .goOn .idleStart
  | idleBlock =>
    rw [threadBlock_sync hn]
    exact .quiet .idleBlock
  | idleHlt =>
    cases hn
    exact .quiet .idleHlt
  | semaDown m | semaRetry m =>
    simp only [exec] at hn
    rcases semaTake_cases hn with ⟨h, hn⟩ | ⟨h, rfl⟩
    · rw [threadBlock_sync hn]
      exact .wait m (by simp) h
    · exact .take m (by simp) h
  | semaTryDown m =>
    cases hn
    split
    · exact .tryDown m (by omega)
    · exact .stay (.tryFails m (by omega))
  | semaUp m =>
    obtain ⟨⟨s₁, o⟩, hw, rfl⟩ := Option.map_eq_some_iff.mp hn
    rcases semaWake_cases hw with ⟨hnil, rfl, rfl⟩ | ⟨t, ht, hmax, rfl, -, rfl⟩
    · exact .upNone m (Or.inl rfl) hnil
    · exact .up m t [.upTest t] (Or.inl ⟨rfl, rfl⟩) ht hmax
  | upTest t =>
    simp only [exec] at hn
    split at hn
    · cases hn
      exact .goOn (.upYield t)
    · rename_i hle
      cases hn
      exact .skip (.upKept t (not_lt.mp hle))
  | acquire l =>
    simp only [exec] at hn
    split at hn
    · cases hn
    · rename_i hne
      split at hn
      · rename_i hnone
        cases hn
        exact .quiet (.acquireFree l hnone)
      · rename_i h hh
        cases hn
        exact .donate l h hh (fun heq => hne (heq ▸ hh))
  | lockDown l | lockRetry l =>
    simp only [exec] at hn
    rcases semaTake_cases hn with ⟨h, hn⟩ | ⟨h, rfl⟩
    · rw [threadBlock_sync hn]
      exact .lockWait l (by simp) h
    · exact .lockTake l (by simp) h
  | tryAcquire l =>
    simp only [exec] at hn
    split at hn
    · cases hn
    · split at hn
      · cases hn
        exact .tryAcquire l ‹_› (by omega)
      · cases hn
        exact .stay (.lockFails l (by omega))
  | trySet l =>
    cases hn
    exact .trySet l
  | release l =>
    simp only [exec] at hn
    split at hn
    · rename_i hh
      cases hn
      rw [lockRelease, State.push_sync _ (threadUpdatePriority_sync ..)
        (threadUpdatePriority_current ..)]
      exact .release l hh
    · cases hn
  | condPush c l =>
    simp only [exec] at hn
    split at hn
    · cases hn
      exact .condPush c l ‹_›
    · cases hn
  | condSignal c l =>
    simp only [exec] at hn
    split at hn
    · split at hn
      · cases hn
        exact .stay (.signalNone c l ‹_›)
      · cases hn
        exact .goOn (.signal c l _ _ ‹_›)
    · cases hn
  | condScan c max rest =>
    simp only [exec] at hn
    split at hn
    · cases hn
      exact .goOn (.scanned c max)
    · split at hn
      · rename_i ha hb
        cases hn
        exact .goOn (.scan c max _ _ _ _ (by rw [ha]; rfl) (by rw [hb]; rfl))
      · cases hn
  | condRemove c w =>
    cases hn
    exact .condRemove c w
  | condBroadcast c l =>
    simp only [exec] at hn
    split at hn
    · rename_i hnil
      cases hn
      exact .stay (.broadcastNone c l (List.isEmpty_iff.mp hnil))
    · rename_i hne
      cases hn
      exact .goOn (.broadcast c l (fun hnil => hne (List.isEmpty_iff.mpr hnil)))
  | sleep n =>
    rw [threadBlock_sync hn]
    exact .quiet (.sleep n)
  | afterSleep =>
    cases hn
    exact .skip .afterSleep
  | timerTick =>
    cases hn
    exact .timerTick
  | timerWake =>
    simp only [exec] at hn
    split at hn
    · cases hn
      exact .stay .timerWoken
    · split at hn
      · cases hn
        exact .stay .timerWoken
      · obtain ⟨s₁, hs₁, rfl⟩ := Option.map_eq_some_iff.mp hn
        obtain ⟨-, rfl⟩ := threadUnblock_eq hs₁
        exact .goOn .timerWake
  | intrSemaUp m =>
    obtain ⟨⟨s₁, o⟩, hw, rfl⟩ := Option.map_eq_some_iff.mp hn
    rcases semaWake_cases hw with ⟨hnil, rfl, rfl⟩ | ⟨t, ht, hmax, rfl, -, rfl⟩
    · exact .upNone m (Or.inr rfl) hnil
    · have heff := Effect.up m t [] (Or.inr ⟨rfl, rfl⟩) ht hmax
      rw [State.push_nil] at heff
      exact heff
  | intrReturn =>
    cases hn
    split
    · exact .intrYield ‹_›
    · rename_i hno
      exact .intrReturn (Bool.eq_false_iff.mpr hno)

/-! ## The code after an instruction -/

variable {rest : List Instr} {y : Sync}

theorem State.pop_current (s : State) (rest : List Instr) : (s.pop rest).code s.current = rest :=
  update_self ..

theorem State.pop_push_current (s : State) (rest l : List Instr) :
    ((s.pop rest).push l).code s.current = l ++ rest := by
  rw [State.pop_push]
  exact update_self ..

theorem State.pop_push_other {t : Tid} (ht : t ≠ s.current) (l : List Instr) :
    ((s.pop rest).push l).code t = s.code t := by
  rw [State.pop_push]
  exact update_of_ne ht ..

theorem newThread_push_current {p : Int} (hfresh : s.current ≠ s.threadCnt) (l : List Instr) :
    ((newThread (s.pop rest) p).push l).code s.current = l ++ rest := by
  have hcur : (newThread (s.pop rest) p).code s.current = rest := by
    simp [newThread, State.pop, hfresh]
  exact (update_self ..).trans (congrArg (l ++ ·) hcur)

/-- The instructions of the other threads stay; a new thread begins with
    `intr_enable`. -/
theorem Effect.code_other {t : Tid} (h : Effect (s.pop rest) i y) (ht : t ≠ s.current) :
    y.code t = s.code t ∨ t = s.threadCnt ∧ y.code t = [.intrOn] := by
  have hpop : (s.pop rest).code t = s.code t := update_of_ne ht ..
  cases h with
  | quiet | timerTick | intrYield | propagate | wait | up | donate | lockWait | tryAcquire
  | release => exact Or.inl (State.pop_push_other ht _)
  | create p =>
    have heq : ((newThread (s.pop rest) p).push [.acquire tidLock, .release tidLock,
        .createUnblock s.threadCnt, .createTest s.threadCnt]).code t =
        (newThread (s.pop rest) p).code t := update_of_ne ht ..
    by_cases htc : t = s.threadCnt
    · subst htc
      exact Or.inr ⟨rfl, heq.trans (update_self ..)⟩
    · exact Or.inl (heq.trans ((update_of_ne htc ..).trans hpop))
  | _ => exact Or.inl hpop

/-- The instructions `l` take the place of instruction `i`. -/
inductive Pushes (s : State) : Instr → List Instr → Prop
  | quiet {i : Instr} {l : List Instr} {b : Option Bool} (h : Quiet s i l b) : Pushes s i l
  | nothing (i : Instr) : Pushes s i []
  | timerTick : Pushes s .timerTick [.timerWake]
  | intrYield : Pushes s .intrReturn [.yield, .intrOn]
  | propagate (k k' : Option LockId) (d d' : Nat) : Pushes s (.propagate k d) [.propagate k' d']
  | create (p : Int) : Pushes s (.create p) [.acquire tidLock, .release tidLock,
      .createUnblock s.threadCnt, .createTest s.threadCnt]
  | wait {i : Instr} (m : SemaId) (hi : i = .semaDown m ∨ i = .semaRetry m) :
    Pushes s i [.semaRetry m]
  | up (m : SemaId) (t : Tid) : Pushes s (.semaUp m) [.upTest t]
  | donate (l : LockId) : Pushes s (.acquire l) [.propagate (some l) 0, .lockDown l]
  | lockWait {i : Instr} (l : LockId) (hi : i = .lockDown l ∨ i = .lockRetry l) :
    Pushes s i [.lockRetry l]
  | tryAcquire (l : LockId) : Pushes s (.tryAcquire l) [.trySet l]
  | release (l : LockId) : Pushes s (.release l) [.semaUp (.lock l)]

/-- The current thread keeps the instructions behind the one it executes. -/
theorem Effect.pushes (h : Effect (s.pop rest) i y) (hfresh : s.current ≠ s.threadCnt) :
    ∃ l, Pushes (s.pop rest) i l ∧ y.code s.current = l ++ rest := by
  have hpush := State.pop_push_current s rest
  cases h with
  | quiet h => exact ⟨_, .quiet h, hpush _⟩
  | timerTick => exact ⟨_, .timerTick, hpush _⟩
  | intrYield => exact ⟨_, .intrYield, hpush _⟩
  | propagate => exact ⟨_, .propagate .., hpush _⟩
  | create p => exact ⟨_, .create p, newThread_push_current hfresh _⟩
  | wait m hi => exact ⟨_, .wait m hi, hpush _⟩
  | up m t l hi =>
    rcases hi with ⟨rfl, rfl⟩ | ⟨rfl, rfl⟩
    · exact ⟨_, .up m t, hpush _⟩
    · exact ⟨_, .nothing _, hpush _⟩
  | donate l => exact ⟨_, .donate l, hpush _⟩
  | lockWait l hi => exact ⟨_, .lockWait l hi, hpush _⟩
  | tryAcquire l => exact ⟨_, .tryAcquire l, hpush _⟩
  | release l => exact ⟨_, .release l, hpush _⟩
  | _ => exact ⟨[], .nothing _, State.pop_current ..⟩

/-! ## Semaphores -/

theorem Effect.semaUp_cases {m : SemaId} (h : Effect s (.semaUp m) y) :
    s.waiters m = [] ∧ y = (s.setValue m ((s.value m + 1) % 2 ^ 32)).sync ∨
      ∃ t ∈ s.waiters m, (∀ u ∈ s.waiters m, s.priority u ≤ s.priority t) ∧
        y = { (s.push [.upTest t]).sync with
          value := update s.value m ((s.value m + 1) % 2 ^ 32)
          waiters := update s.waiters m ((s.waiters m).erase t)
          intr := false } := by
  cases h with
  | quiet h => cases h
  | wait _ hi | take _ hi | lockWait _ hi | lockTake _ hi => rcases hi with hi | hi <;> cases hi
  | upNone _ hi hnil =>
    rcases hi with hi | hi <;> cases hi
    exact Or.inl ⟨hnil, rfl⟩
  | up _ t l hi ht hmax =>
    rcases hi with ⟨hi, rfl⟩ | ⟨hi, -⟩ <;> cases hi
    exact Or.inr ⟨t, ht, hmax, rfl⟩

theorem Effect.semaDown_cases {m : SemaId} (h : Effect s i y)
    (hi : i = .semaDown m ∨ i = .semaRetry m) :
    s.value m = 0 ∧ y = { (s.push [.semaRetry m]).sync with
      waiters := update s.waiters m
        ((s.waiters m).orderedInsert (threadCmp s) s.current)
      intr := false } ∨
    s.value m ≠ 0 ∧ y = { (s.setValue m (s.value m - 1)).sync with intr := true } := by
  rcases hi with rfl | rfl
  · cases h with
    | quiet h => cases h
    | wait m' hi hv =>
      obtain rfl : m = m' := by simpa using hi
      exact Or.inl ⟨hv, rfl⟩
    | take m' hi hv =>
      obtain rfl : m = m' := by simpa using hi
      exact Or.inr ⟨hv, rfl⟩
    | _ => simp_all
  · cases h with
    | quiet h => cases h
    | wait m' hi hv =>
      obtain rfl : m = m' := by simpa using hi
      exact Or.inl ⟨hv, rfl⟩
    | take m' hi hv =>
      obtain rfl : m = m' := by simpa using hi
      exact Or.inr ⟨hv, rfl⟩
    | _ => simp_all

/-! ## Priorities -/

/-- Priorities change by `thread_update_priority` of the current thread, and by
    donation. -/
theorem Effect.priority (h : Effect (s.pop rest) i y) (t : Tid) :
    y.priority t = s.priority t ∨ t = s.current ∧ (i = .updatePriority ∨ ∃ l, i = .release l) ∨
      (t ≠ s.current ∧ s.priority t < s.priority s.current ∧
        y.priority t = s.priority s.current ∧ ∃ k depth, i = .propagate k depth) ∨
      t = s.threadCnt ∧ ∃ p, i = .create p := by
  cases h with
  | updatePriority =>
    by_cases ht : t = s.current
    · exact Or.inr (Or.inl ⟨ht, Or.inl rfl⟩)
    · exact Or.inl (update_of_ne ht ..)
  | release l =>
    by_cases ht : t = s.current
    · exact Or.inr (Or.inl ⟨ht, Or.inr ⟨l, rfl⟩⟩)
    · exact Or.inl (update_of_ne ht ..)
  | propagate l depth h hdepth hholder hlt =>
    by_cases ht : t = h
    · subst ht
      refine Or.inr (Or.inr (Or.inl ⟨?_, hlt, update_self .., _, _, rfl⟩))
      rintro rfl
      exact lt_irrefl _ hlt
    · exact Or.inl (update_of_ne ht ..)
  | create p =>
    by_cases ht : t = s.threadCnt
    · exact Or.inr (Or.inr (Or.inr ⟨ht, p, rfl⟩))
    · exact Or.inl (update_of_ne ht ..)
  | _ => exact Or.inl rfl

/-- The instructions that change priorities. -/
def Instr.prioritises : Instr → Bool
  | .updatePriority | .release _ | .propagate _ _ | .create _ => true
  | _ => false

theorem Effect.priority_eq (h : Effect (s.pop rest) i y) (hi : i.prioritises = false) :
    y.priority = s.priority := by
  funext t
  rcases h.priority t with h | ⟨-, rfl | ⟨l, rfl⟩⟩ | ⟨-, -, -, k, depth, rfl⟩ | ⟨-, p, rfl⟩
  · exact h
  all_goals cases hi

/-! ## Steps that are not instructions -/

/-- A call or an interrupt gives the current thread instructions. -/
inductive Arrival (s : State) : Label → List Instr → Bool → Bool → Prop
  | call (op : Op) (h : s.code s.current = []) :
    Arrival s (.call op) (op.code s.current) s.intr s.inIntr
  | timer (h : s.intr = true) : Arrival s .timer [.timerTick, .intrReturn] false true
  | device (l : List HandlerOp) (h : s.intr = true) :
    Arrival s (.device l) (l.map HandlerOp.instr ++ [.intrReturn]) false true

theorem next_cases {a : Label} (hn : next s a = some s') :
    (∃ l b c d, Arrival s a l b c ∧ s'.current = s.current ∧ s'.readyList = s.readyList ∧
      s'.sync = { (s.push l).sync with intr := b, inIntr := c, yieldOnReturn := d }) ∨
    ∃ i rest, a = .run ∧ s.code s.current = i :: rest ∧ exec (s.pop rest) i = some s' := by
  cases a with
  | call op =>
    simp only [next] at hn
    split at hn
    · rename_i hcode
      cases hn
      exact Or.inl ⟨_, _, _, _, .call op hcode, rfl, rfl, rfl⟩
    · cases hn
  | run =>
    simp only [next] at hn
    split at hn
    · cases hn
    · rename_i i rest hcode
      exact Or.inr ⟨i, rest, rfl, hcode, hn⟩
  | timer =>
    simp only [next, interrupt] at hn
    split at hn
    · rename_i hi
      cases hn
      exact Or.inl ⟨_, _, _, _, .timer hi, rfl, rfl, rfl⟩
    · cases hn
  | device l =>
    simp only [next, interrupt] at hn
    split at hn
    · rename_i hi
      cases hn
      exact Or.inl ⟨_, _, _, _, .device l hi, rfl, rfl, rfl⟩
    · cases hn

end

end Pintos.Threads
