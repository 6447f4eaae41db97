/-
  Pintos.Threads.QueueSteps

  Every step of the machine keeps the threads on the lists they belong to.
-/

import Pintos.Threads.Frame

namespace Pintos.Threads

open Pintos.Base Function

section

variable {s s' : State} {i : Instr} {rest : List Instr}

theorem Queues.Ok.threadUpdatePriority {t : Tid} (h : s.queues.Ok) (hidle : t ≠ idleTid) :
    (threadUpdatePriority s t).queues.Ok := by
  simp only [Threads.threadUpdatePriority]
  split
  · exact h.setPriority _ hidle
  · exact h

/-- Nobody waits for the `waiter` of a thread but the thread itself. -/
theorem Queues.Ok.waiter_nil (h : s.queues.Ok) : s.waiters (.waiter s.current) = [] := by
  refine List.eq_nil_iff_forall_not_mem.mpr fun t ht => ?_
  obtain ⟨hb, hr⟩ := (h.waiters _ t).mp ht
  obtain ⟨x, hx, hrx⟩ := Option.bind_eq_some_iff.mp hr
  have hmem : x ∈ s.code t := List.mem_of_mem_head? hx
  have hbelongs := h.belongs t x hmem
  have ht : s.current = t := by
    cases x <;> simp only [Instr.retries, reduceCtorEq, Option.some.injEq] at hrx
    · subst hrx
      exact hbelongs
  rw [← ht, show s.queues.status s.current = .running from h.running] at hb
  cases hb

theorem Queues.Ok.current_ne_fresh (h : s.queues.Ok) : s.current ≠ s.threadCnt := by
  intro hc
  have hdying := (h.fresh s.current (Nat.le_of_eq hc.symm)).1
  rw [show s.queues.status s.current = .running from h.running] at hdying
  cases hdying

/-- Executing `x` keeps the queues, for an instruction that does not end the
    code of the idle thread. -/
theorem Queues.Ok.exec_popped (h : s.queues.Ok) (hholder : ∀ l t, s.holder l = some t → t ≠ idleTid)
    (hcur : i.ofIdle = false → s.current ≠ idleTid) (hi : i.endsIdle = false)
    (hbelongs : i.belongs s.idleThread s.current)
    (hcreated : ∀ t, i = .createUnblock t → s.status t = .blocked ∧ s.code t = [.intrOn] ∧
      ∀ c, .createUnblock t ∉ s.code c)
    (hn : exec s i = some s') : s'.queues.Ok := by
  cases i with
  | intrOn | afterBlock | setOriginal | trySet | condRemove | afterSleep =>
    cases hn
    exact h
  | yield => exact Queues.Ok.threadYield (s := { s with intr := false }) h hn
  | block =>
    refine Queues.Ok.threadBlock (s := { s with intr := false }) h (x := .afterBlock) (by simp)
      (fun hc => absurd hc (hcur rfl)) trivial (w := s.waiters) (d := s.sleepList) ?_
      h.waitersNodup ?_ h.sleepNodup hn
    · intro m u
      simp [Instr.retries]
    · simp
  | unblock t =>
    simp only [exec] at hn
    split at hn
    · rename_i hhead
      obtain ⟨hb, rfl⟩ := threadUnblock_eq hn
      exact h.wakeUnlisted hb (Or.inl hhead) (readyInsert_perm s t)
    · cases hn
  | updatePriority =>
    cases hn
    exact h.threadUpdatePriority (hcur rfl)
  | propagateOwn =>
    cases hn
    exact Queues.Ok.push (s := { s with intr := false }) h (by simp)
      (fun hc => absurd hc (hcur rfl)) (by simp)
  | propagate l depth =>
    have hround : (propagateRound s l depth).1.queues.Ok ∧
        (propagateRound s l depth).1.current = s.current := by
      simp only [propagateRound]
      split
      · exact ⟨h, rfl⟩
      · split
        · split
          · exact ⟨h, rfl⟩
          · rename_i k hk
            split
            · refine ⟨h.setPriority _ (hholder _ k hk), ?_⟩
              exact congrArg Queues.current (setPriority_queues s k _)
            · exact ⟨h, rfl⟩
        · exact ⟨h, rfl⟩
    simp only [exec] at hn
    split at hn
    · cases hn
      exact hround.1
    · cases hn
      refine hround.1.push (by simp) ?_ (by simp)
      rw [hround.2]
      exact fun hc => absurd hc (hcur rfl)
  | setTest | createTest _ | condSignal _ _ | condScan _ _ _ | condBroadcast _ _ =>
    -- at most, other instructions are pushed
    simp only [exec] at hn
    repeat' split at hn
    all_goals cases hn
    all_goals
      first
      | exact h
      | exact h.push (by simp) (fun hc => absurd hc (hcur rfl)) (by simp)
  | create p =>
    simp only [exec] at hn
    split at hn
    · cases hn
      have hne : s.current ≠ s.threadCnt := h.current_ne_fresh
      have hcode : (newThread s p).code s.current = s.code s.current := by
        simp [newThread, hne]
      have hok := h.create (c := [.acquire tidLock, .release tidLock, .createUnblock s.threadCnt,
        .createTest s.threadCnt] ++ s.code s.current) ?_ (hcur rfl) ?_
      · rw [← hcode] at hok
        exact hok
      · intro t
        by_cases ht : t = s.threadCnt
        · subst ht
          simp [State.queues]
        · simp [State.queues, ht, Ne.symm ht]
      · intro i hi
        simp only [List.mem_append] at hi
        rcases hi with hi | hi
        · refine Or.inr ?_
          revert i
          simp
        · exact Or.inl hi
    · cases hn
  | createUnblock t =>
    obtain ⟨hb, hc, hnew⟩ := hcreated t rfl
    obtain ⟨-, rfl⟩ := threadUnblock_eq hn
    exact h.wakeUnlisted hb (Or.inr ⟨by simp [State.queues, hc], hnew⟩) (readyInsert_perm s t)
  | idleStart | idleBlock | idleHlt => cases hi
  | semaDown m | semaRetry m =>
    simp only [exec] at hn
    rcases semaTake_cases hn with ⟨-, hn⟩ | ⟨-, rfl⟩
    · refine Queues.Ok.wait (s := { s with intr := false }) h rfl (hcur rfl) ?_ hn
      cases m <;> exact hbelongs
    · exact h
  | semaTryDown m =>
    cases hn
    split <;> exact h
  | semaUp m =>
    obtain ⟨⟨s₁, o⟩, hw, rfl⟩ := Option.map_eq_some_iff.mp hn
    have hok := h.semaWake hw
    cases o with
    | none => exact hok
    | some t =>
      exact Queues.Ok.push (s := { s₁ with intr := false }) hok (by simp)
        (by simp [Instr.ofIdle]) (by simp)
  | upTest t => 
      simp only [exec] at hn
      split at hn
      · cases hn
        exact h.push (by simp) (by simp [Instr.ofIdle]) (by simp)
      · cases hn
        exact h
  | acquire l =>
    simp only [exec] at hn
    split at hn
    · cases hn
    · split at hn
      · cases hn
        exact Queues.Ok.push (s := { s with intr := false }) h (by simp)
          (fun hc => absurd hc (hcur rfl)) (by simp)
      · rename_i k hk
        cases hn
        exact Queues.Ok.push (s := donate { s with intr := false } l k) h (by simp)
          (fun hc => absurd hc (hcur rfl)) (by simp)
  | lockDown l | lockRetry l =>
    simp only [exec] at hn
    rcases semaTake_cases hn with ⟨-, hn⟩ | ⟨-, rfl⟩
    · refine h.wait ?_ (hcur rfl) ?_ hn
      · rfl
      · trivial
    · exact h
  | tryAcquire l =>
    simp only [exec] at hn
    split at hn
    · cases hn
    · split at hn
      · cases hn
        exact Queues.Ok.push (s := s.setValue _ _) h (by simp)
          (fun hc => absurd hc (hcur rfl)) (by simp)
      · cases hn
        exact h
  | release l =>
    simp only [exec] at hn
    split at hn
    · cases hn
      have hcurrent : (lockRelease s l).current = s.current := threadUpdatePriority_current ..
      have hok : (lockRelease s l).queues.Ok := Queues.Ok.threadUpdatePriority
        (s := { s with donorThreads := _, holder := _ }) h (hcur rfl)
      refine hok.push (by simp) ?_ (by simp)
      rw [hcurrent]
      exact fun hc => absurd hc (hcur rfl)
    · cases hn
  | condPush c l =>
    simp only [exec] at hn
    split at hn
    · cases hn
      have hnil : s.waiters (.waiter s.current) = [] := h.waiter_nil
      have hsame : update s.waiters (.waiter s.current) [] = s.waiters := by
        rw [← hnil, update_eq_self]
      have hq : ∀ f v, State.queues { s with
          value := v
          waiters := update s.waiters (.waiter s.current) []
          condWaiters := f } = s.queues := by
        intro f v
        simp only [State.queues, hsame]
      exact (hq _ _).symm ▸ h
    · cases hn
  | sleep n =>
    have hsleep : s.current ∉ s.sleepList := by
      intro hmem
      have hb := ((h.sleep _).mp hmem).1
      rw [show s.queues.status s.current = .running from h.running] at hb
      cases hb
    refine Queues.Ok.threadBlock (s := { s with intr := false, wakeupTick := _ }) h
      (x := .afterSleep) (by simp) (fun hc => absurd hc (hcur rfl)) trivial (w := s.waiters) ?_
      h.waitersNodup ?_ ?_ hn
    · intro m u
      simp [Instr.retries]
    · intro u
      simp [List.mem_orderedInsert, or_comm]
    · rw [(List.perm_orderedInsert ..).nodup_iff]
      exact List.nodup_cons.mpr ⟨hsleep, h.sleepNodup⟩
  | timerTick =>
    cases hn
    exact Queues.Ok.push (s := { s with ticks := _, threadTicks := _, yieldOnReturn := _ }) h
      (by simp) (by simp [Instr.ofIdle]) (by simp)
  | timerWake =>
    simp only [exec] at hn
    split at hn
    · cases hn
      exact h
    · rename_i t l hl
      split at hn
      · cases hn
        exact h
      · obtain ⟨s₁, hs₁, rfl⟩ := Option.map_eq_some_iff.mp hn
        obtain ⟨-, rfl⟩ := threadUnblock_eq hs₁
        have hok := h.wakeSleeper hl (List.perm_orderedInsert (threadCmp s) t s.readyList)
        exact Queues.Ok.push (s := (readyInsert { s with sleepList := l } t).setStatus t .ready)
          hok (by simp) (by simp [Instr.ofIdle]) (by simp)
  | intrSemaUp m =>
    obtain ⟨⟨s₁, o⟩, hw, rfl⟩ := Option.map_eq_some_iff.mp hn
    exact h.semaWake hw
  | intrReturn =>
    cases hn
    split
    · exact Queues.Ok.push (s := { s with inIntr := false }) h (by simp)
        (by simp [Instr.ofIdle]) (by simp)
    · exact h

/-! ## The loop of `idle` -/

theorem Queues.Ok.idleStart (h : s.queues.Ok) (hcode : s.code s.current = .idleStart :: rest)
    (hn : exec (s.pop rest) .idleStart = some s') : s'.queues.Ok := by
  have hbelongs : s.current = idleTid := h.belongs s.current .idleStart (by
    show _ ∈ s.code s.current
    simp [hcode])
  cases hn
  have hset := h.setIdle hbelongs
  have hic : IdleCode (.idleStart :: rest) := by
    rw [← hcode, hbelongs]
    exact h.idleCode
  have hok := hset.recode ([.semaUp .idleStarted, .idleBlock] ++ rest) ?_ ?_ ?_
  · rw [← hbelongs] at hok
    simpa [State.queues, State.pop, State.push] using hok
  · intro t
    show _ ≤ (s.code s.current).count _
    simp [hcode]
  · intro hc
    exact hic.advance (by simp [Instr.ofIdle]) (by simp [Instr.endsIdle])
  · intro i hi
    show i ∈ s.code s.current ∨ i.belongs (some idleTid) s.current
    rw [hcode]
    simp only [List.cons_append, List.nil_append, List.mem_cons] at hi ⊢
    rcases hi with rfl | rfl | hi
    · exact Or.inr trivial
    · exact Or.inr (by simp [hbelongs])
    · exact Or.inl (Or.inr hi)

theorem Queues.Ok.idleBlock (h : s.queues.Ok) (hcode : s.code s.current = .idleBlock :: rest)
    (hn : exec (s.pop rest) .idleBlock = some s') : s'.queues.Ok := by
  have hbelongs : s.idleThread = some s.current := h.belongs s.current .idleBlock (by
    show _ ∈ s.code s.current
    simp [hcode])
  have hcur : s.current = idleTid := h.idleThread _ hbelongs
  have hic : IdleCode (.idleBlock :: rest) := by
    rw [← hcode, hcur]
    exact h.idleCode
  obtain ⟨n, l, hnext, rfl⟩ := schedule_eq hn
  have hok := h.block (c := .idleHlt :: rest) (w := s.waiters) (d := s.sleepList) hnext ?_ ?_ ?_ ?_
    h.waitersNodup ?_ h.sleepNodup
  · simpa [State.queues, State.pop, State.push, State.setStatus] using hok
  · intro t
    show _ ≤ (s.code s.current).count _
    simp [hcode]
  · intro _
    refine ⟨hcur ▸ hbelongs, rfl, ?_⟩
    exact hic.advance (l := [.idleHlt]) (by simp [Instr.ofIdle]) (by simp [Instr.endsIdle])
  · intro i hi
    show i ∈ s.code s.current ∨ i.belongs s.idleThread s.current
    rw [hcode]
    rcases List.mem_cons.mp hi with rfl | hi
    · exact Or.inr hbelongs
    · exact Or.inl (List.mem_cons_of_mem _ hi)
  · simp [State.queues, Instr.retries]
  · simp [State.queues]

theorem Queues.Ok.idleHlt (h : s.queues.Ok) (hcode : s.code s.current = .idleHlt :: rest)
    (hn : exec (s.pop rest) .idleHlt = some s') : s'.queues.Ok := by
  have hbelongs : s.idleThread = some s.current := h.belongs s.current .idleHlt (by
    show _ ∈ s.code s.current
    simp [hcode])
  have hic : s.current = idleTid → IdleCode (.idleHlt :: rest) := by
    intro hcur
    rw [← hcode, hcur]
    exact h.idleCode
  cases hn
  have hok := h.recode ([.idleBlock] ++ rest) ?_ ?_ ?_
  · simpa [State.queues, State.pop, State.push] using hok
  · intro t
    show _ ≤ (s.code s.current).count _
    simp [hcode]
  · exact fun hcur =>
      (hic hcur).advance (by simp [Instr.ofIdle]) (by simp [Instr.endsIdle])
  · intro i hi
    show i ∈ s.code s.current ∨ i.belongs s.idleThread s.current
    rw [hcode]
    rcases List.mem_cons.mp hi with rfl | hi
    · exact Or.inr hbelongs
    · exact Or.inl (List.mem_cons_of_mem _ hi)

/-- An instruction keeps the queues. -/
theorem Queues.Ok.exec (h : s.queues.Ok) (hholder : ∀ l t, s.holder l = some t → t ≠ idleTid)
    (hcode : s.code s.current = i :: rest) (hn : exec (s.pop rest) i = some s') :
    s'.queues.Ok := by
  by_cases hi : i.endsIdle = true
  · cases i with
    | idleStart => exact h.idleStart hcode hn
    | idleBlock => exact h.idleBlock hcode hn
    | idleHlt => exact h.idleHlt hcode hn
    | _ => cases hi
  · have hi : i.endsIdle = false := by simpa using hi
    have hmem : i ∈ s.queues.code s.current := by
      show i ∈ s.code s.current
      simp [hcode]
    refine Queues.Ok.exec_popped (s := s.pop rest) (h.pop hcode hi) hholder (h.not_idle hcode) hi
      (h.belongs _ i hmem) ?_ hn
    -- the thread that is being created has no other creator
    rintro t rfl
    obtain ⟨hb, hc, hcount⟩ := h.created _ t hmem
    have hcount : (Instr.createUnblock t :: rest).count (.createUnblock t) = 1 := hcode ▸ hcount
    have hrest : .createUnblock t ∉ rest := by
      rw [List.count_cons_self] at hcount
      exact List.count_eq_zero.mp (by omega)
    have hne : t ≠ s.current := by
      rintro rfl
      rw [show s.queues.status s.current = .running from h.running] at hb
      cases hb
    refine ⟨hb, (update_of_ne hne ..).trans hc, ?_⟩
    intro c hmem'
    by_cases hcc : c = s.current
    · subst hcc
      simp only [State.pop, update_self] at hmem'
      exact hrest hmem'
    · simp only [State.pop, update_of_ne hcc] at hmem'
      exact hcc (h.creator c s.current t hmem' hmem)

end

end Pintos.Threads
