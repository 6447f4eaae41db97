/-
  Pintos.Threads.Sleep

  `timer_sleep` and the loop of `timer_interrupt`.  The sleep list is in the
  order of the wakeup ticks, so that the loop, which stops at the first thread
  that is not due, leaves no thread on the list that is.  A thread that goes to
  sleep at tick `s` for `n` ticks leaves the list in the interrupt of tick
  `max (s + n) (s + 1)`: nobody gets into the list while the loop runs, so that
  the loop of tick `s` does not see the thread.
-/

import Pintos.Threads.Masking

namespace Pintos.Threads

open Pintos.Base Function

variable {s s' : State} {i : Instr} {rest : List Instr}

/-! ## The clock -/

/-- The instructions of `timer_sleep` and `timer_interrupt`. -/
def Instr.clock : Instr → Bool
  | .sleep _ | .timerTick | .timerWake => true
  | _ => false

def Sched.clock (c : Sched) : List Tid × (Tid → Int) × Int := (c.sleepList, c.wakeupTick, c.ticks)

theorem exec_clock (hn : exec s i = some s') (hi : i.clock = false) :
    s'.sched.clock = s.sched.clock := by
  have hsame : ∀ {c : Sched}, s'.sched = c → c.clock = s.sched.clock →
      s'.sched.clock = s.sched.clock := fun h hc => (congrArg Sched.clock h).trans hc
  cases exec_dispatch hn with
  | keep _ h | create _ h => exact hsame h rfl
  | block _ hz _ hb =>
    have hclock := congrArg Sched.clock hz
    exact hsame (schedule_sched hb) hclock
  | yield hy => exact hsame (threadYield_sched hy) rfl
  | prioritise t p _ _ h => exact hsame (h.trans (setPriority_sched ..)) rfl
  | wake t _ h =>
    have hne : i ≠ .timerWake := by
      rintro rfl
      cases hi
    rw [if_neg hne] at h
    exact hsame h rfl
  | tick | sleep => cases hi

/-- The loop of `timer_interrupt` ends, or wakes the first thread. -/
theorem exec_timerWake (hn : exec s .timerWake = some s') :
    (s' = s ∧ ∀ t ∈ s.sleepList.head?, s.ticks < s.wakeupTick t) ∨
      ∃ t l, s.sleepList = t :: l ∧ s.wakeupTick t ≤ s.ticks ∧
        s' = ((readyInsert { s with sleepList := l } t).setStatus t .ready).push [.timerWake] := by
  simp only [exec] at hn
  split at hn
  · rename_i hnil
    cases hn
    exact Or.inl ⟨rfl, by simp [hnil]⟩
  · rename_i t l hl
    split at hn
    · rename_i hlt
      cases hn
      exact Or.inl ⟨rfl, by simpa [hl] using hlt⟩
    · rename_i hle
      obtain ⟨s₁, hs₁, rfl⟩ := Option.map_eq_some_iff.mp hn
      obtain ⟨-, rfl⟩ := threadUnblock_eq hs₁
      exact Or.inr ⟨t, l, hl, not_lt.mp hle, rfl⟩

theorem Pushes.timerWake {l : List Instr} (h : Pushes s i l) (hl : .timerWake ∈ l) :
    i = .timerTick ∨ i = .timerWake := by
  cases h with
  | quiet h => cases h <;> simp_all
  | _ => simp_all

theorem Arrival.no_timerWake {a : Label} {l : List Instr} {b c : Bool} (h : Arrival s a l b c) :
    .timerWake ∉ l := by
  cases h with
  | call op => cases op <;> simp [Op.code]
  | timer => simp
  | device ops =>
    simp only [List.mem_append, List.mem_map, List.mem_singleton, reduceCtorEq, or_false]
    rintro ⟨op, -, hop⟩
    cases op <;> cases hop

/-- A call or an interrupt does not touch the scheduler. -/
theorem next_sched {a : Label} (hn : next s a = some s') (ha : a ≠ .run) : s'.sched = s.sched := by
  cases a with
  | run => exact absurd rfl ha
  | call op =>
    simp only [next] at hn
    split at hn <;> cases hn
    rfl
  | timer | device l =>
    simp only [next, interrupt] at hn
    split at hn <;> cases hn
    rfl

/-! ## The sleep list -/

/-- The sleep list is in order, and only the current thread can be in
    `timer_interrupt`. -/
structure SleepOk (s : State) : Prop where
  wf : Wf s
  masked : Masked s
  sorted : Descending (fun t => -s.wakeupTick t) s.sleepList
  handler : ∀ t, t ≠ s.current → .timerWake ∉ s.code t

theorem SleepOk.current_awake (h : SleepOk s) : s.current ∉ s.sleepList := by
  intro hmem
  have hb := ((h.wf.queues.sleep _).mp hmem).1
  rw [show s.queues.status s.current = .running from h.wf.queues.running] at hb
  cases hb

theorem SleepOk.not_due (h : SleepOk s) (hnot : ∀ t ∈ s.sleepList.head?, s.ticks < s.wakeupTick t) :
    ∀ t ∈ s.sleepList, s.ticks < s.wakeupTick t := by
  have hsorted := h.sorted
  cases hl : s.sleepList with
  | nil => simp
  | cons u l =>
    rw [hl] at hnot hsorted
    intro t ht
    have hle := hsorted.head ht
    have hu := hnot u rfl
    omega

theorem SleepOk.sorted_exec (h : SleepOk s) (hn : exec (s.pop rest) i = some s') :
    Descending (fun t => -s'.wakeupTick t) s'.sleepList := by
  cases i with
  | sleep n =>
    obtain ⟨_, _, -, rfl⟩ := schedule_eq hn
    refine Descending.orderedInsert (h.sorted.congr fun t ht => ?_) (fun a b => ?_) s.current
    · have hne : t ≠ s.current := by
        rintro rfl
        exact h.current_awake ht
      exact congrArg Neg.neg (update_of_ne hne ..)
    · exact Int.neg_lt_neg_iff.symm
  | timerTick =>
    cases hn
    exact h.sorted
  | timerWake =>
    rcases exec_timerWake hn with ⟨rfl, -⟩ | ⟨t, l, hl, -, rfl⟩
    · exact h.sorted
    · have hsorted := h.sorted
      rw [show s.sleepList = t :: l from hl] at hsorted
      exact hsorted.tail
  | _ =>
    have hclock := exec_clock hn rfl
    simp only [Sched.clock, State.sched, Prod.mk.injEq] at hclock
    rw [hclock.1, hclock.2.1]
    exact h.sorted

/-- The loop of `timer_interrupt` comes behind its beginning, or goes on. -/
theorem SleepOk.timerWake_mem (h : SleepOk s) (hcode : s.code s.current = i :: rest)
    (hn : exec (s.pop rest) i = some s') {t : Tid} (hmem : .timerWake ∈ s'.code t) :
    t = s.current ∧ (i = .timerTick ∨ i = .timerWake ∨
      i.keepsLevel = true ∧ .timerWake ∈ s.code s.current) := by
  have heff := exec_effect hn
  by_cases ht : t = s.current
  · refine ⟨ht, ?_⟩
    subst ht
    obtain ⟨l, hl, hl'⟩ := heff.pushes h.wf.queues.current_ne_fresh
    rw [show s'.code s.current = l ++ rest from hl'] at hmem
    rcases List.mem_append.mp hmem with hmem | hmem
    · exact (hl.timerWake hmem).imp_right Or.inl
    · have hg := h.masked.guarded s.current
      rw [hcode] at hg ⊢
      simp only [guarded, Bool.and_eq_true, Bool.or_eq_true, Bool.not_eq_true'] at hg
      rw [off_of_mem hg.1 hmem rfl] at hg
      exact Or.inr (Or.inr ⟨by simpa using hg.2, List.mem_cons_of_mem _ hmem⟩)
  · rcases heff.code_other ht with hc | ⟨-, hc⟩
    · rw [show s'.code t = s.code t from hc] at hmem
      exact absurd hmem (h.handler t ht)
    · rw [show s'.code t = [.intrOn] from hc] at hmem
      simp at hmem

theorem SleepOk.next {a : Label} (h : SleepOk s) (hn : next s a = some s') : SleepOk s' := by
  refine ⟨h.wf.next hn, h.masked.next h.wf hn, ?_, fun t ht hmem => ?_⟩
  · rcases next_cases hn with ⟨_, _, _, _, harr, -⟩ | ⟨i, rest, -, hcode, hn⟩
    · have hclock := congrArg Sched.clock (next_sched hn (by cases harr <;> simp))
      simp only [Sched.clock, State.sched, Prod.mk.injEq] at hclock
      rw [hclock.1, hclock.2.1]
      exact h.sorted
    · exact h.sorted_exec hn
  · rcases next_cases hn with ⟨l, _, _, _, harr, hc, -, hs'⟩ | ⟨i, rest, -, hcode, hn⟩
    · rw [hc] at ht
      rw [show s'.code t = s.code t from
        (congrFun (congrArg Sync.code hs') t).trans (update_of_ne ht ..)] at hmem
      exact h.handler t ht hmem
    · obtain ⟨rfl, hi⟩ := h.timerWake_mem hcode hn hmem
      -- a thread that is switched from is not in an interrupt
      rcases exec_current hn with hc | ⟨hsw, -⟩
      · exact ht hc.symm
      · rcases hi with rfl | rfl | ⟨hk, -⟩
        · cases hsw
        · cases hsw
        · rw [Instr.switches_of_keepsLevel hk] at hsw
          cases hsw

theorem sleepOk_of_reachable (h : machine.Reachable s) : SleepOk s := by
  refine System.Reachable.invariant (I := SleepOk) (fun s hs => ?_) (fun _ _ _ hs hn => hs.next hn) h
  refine ⟨Initial.wf hs, Initial.masked hs, ?_, fun t _ hmem => ?_⟩
  · rw [Initial.sleepList hs]
    simp [Descending]
  · rw [Initial.code hs] at hmem
    simp only at hmem
    split at hmem
    · simp at hmem
    · split at hmem <;> simp at hmem

/-- The loop of `timer_interrupt` ends, and leaves no thread on the list that is
    due. -/
theorem SleepOk.loop (h : SleepOk s) (hcode : s.code s.current = .timerWake :: rest) :
    ∃ k s', machine.run (fun _ _ => True) s (List.replicate k .run) = some s' ∧
      s'.code s'.current = rest ∧ s'.ticks = s.ticks ∧
      ∀ t ∈ s'.sleepList, s'.ticks < s'.wakeupTick t := by
  -- every round takes one thread off the list
  induction hl : s.sleepList generalizing s with
  | nil =>
    have hn : machine.next s .run = some (s.pop rest) := by
      simp [machine, Threads.next, hcode, exec, hl, State.pop]
    refine ⟨1, s.pop rest, by simp [System.run, hn], State.pop_current s rest, rfl, ?_⟩
    simp [State.pop, hl]
  | cons t l ih =>
    by_cases hdue : s.ticks < s.wakeupTick t
    · have hn : machine.next s .run = some (s.pop rest) := by
        simp [machine, Threads.next, hcode, exec, hl, State.pop, hdue]
      refine ⟨1, s.pop rest, by simp [System.run, hn], State.pop_current s rest, rfl, ?_⟩
      exact h.not_due (by simpa [hl] using hdue)
    · have hblocked : s.status t = .blocked :=
        ((h.wf.queues.sleep t).mp (by simp [State.queues, hl])).1
      have hn : machine.next s .run = some (((readyInsert { s.pop rest with sleepList := l }
          t).setStatus t .ready).push [.timerWake]) := by
        simp [machine, Threads.next, hcode, exec, hl, hdue, threadUnblock, hblocked, State.pop]
      obtain ⟨k, s', hrun, hrest, ht, hnot⟩ := ih (h.next (a := .run) hn)
        (by simp [State.push, readyInsert, State.setStatus, State.pop]) rfl
      refine ⟨k + 1, s', ?_, hrest, ht, hnot⟩
      simpa [System.run, hn, List.replicate_succ] using hrun

/-! ## A thread that sleeps -/

/-- `z` is reached from `y` by steps after each of which thread `t` is on the
    sleep list. -/
inductive Asleep (t : Tid) (y : State) : State → Prop
  | start : Asleep t y y
  | step {z z' : State} {a : Label} (h : Asleep t y z) (hn : next z a = some z')
    (hmem : t ∈ z'.sleepList) : Asleep t y z'

/-- Thread `t` went to sleep at tick `start` for `n` ticks. -/
structure Sleeping (t : Tid) (start n : Int) (s : State) : Prop where
  ok : SleepOk s
  mem : t ∈ s.sleepList
  wakeup : s.wakeupTick t = start + n
  le : start ≤ s.ticks
  /-- The loop of the interrupt is that of a later tick. -/
  later : .timerWake ∈ s.code s.current → start < s.ticks
  bound : s.ticks ≤ max (start + n) (start + 1)
  last : s.ticks = max (start + n) (start + 1) → (s.code s.current).head? = some .timerWake

variable {t : Tid} {start n : Int}

theorem Sleeping.of_sleep (h : SleepOk s) (hcode : s.code s.current = .sleep n :: rest)
    (hn : next s .run = some s') : Sleeping s.current s.ticks n s' := by
  have hok := h.next hn
  rcases next_cases hn with ⟨_, _, _, _, harr, -⟩ | ⟨i, rest', -, hcode', hn⟩
  · cases harr
  · rw [hcode] at hcode'
    cases hcode'
    have hnone : ∀ u, .timerWake ∉ s'.code u := by
      intro u hmem
      obtain ⟨-, hi | hi | ⟨hi, -⟩⟩ := h.timerWake_mem hcode hn hmem <;> cases hi
    obtain ⟨_, _, -, rfl⟩ := schedule_eq hn
    refine ⟨hok, ?_, update_self .., le_rfl, fun hmem => absurd hmem (hnone _), ?_, ?_⟩
    · exact (List.mem_orderedInsert _).mpr (Or.inl rfl)
    · show s.ticks ≤ _
      omega
    · intro heq
      have heq : s.ticks = max (s.ticks + n) (s.ticks + 1) := heq
      omega

/-- A sleeping thread stays on the list before its tick, and in its tick until the
    loop of the interrupt comes to it. -/
theorem Sleeping.step {a : Label} (h : Sleeping t start n s) (hn : next s a = some s') :
    Sleeping t start n s' ∨ t ∉ s'.sleepList ∧ a = .run ∧
      (s.code s.current).head? = some .timerWake ∧ s.ticks = max (start + n) (start + 1) ∧
      t ∈ s'.readyList := by
  have hok := h.ok.next hn
  have hwakeup := h.wakeup
  have hle := h.le
  have hbound := h.bound
  rcases next_cases hn with ⟨l, _, _, _, harr, hc, -, hs'⟩ | ⟨i, rest, rfl, hcode, hn⟩
  · -- no call and no interrupt comes inside the loop
    have hlast : s.ticks ≠ max (start + n) (start + 1) := by
      intro heq
      obtain ⟨rest, hcode⟩ := List.head?_eq_some_iff.mp (h.last heq)
      have hoff : off (s.code s.current) = true := by rw [hcode]; rfl
      cases harr with
      | call op hnil => simp [hnil] at hcode
      | timer hi | device ops hi => simp [h.ok.masked.off hi] at hoff
    have hclock := congrArg Sched.clock (next_sched hn (by cases harr <;> simp))
    simp only [Sched.clock, State.sched, Prod.mk.injEq] at hclock
    obtain ⟨hl, hw, ht⟩ := hclock
    refine Or.inl ⟨hok, hl ▸ h.mem, by rw [hw, hwakeup], by rw [ht]; exact hle, fun hmem => ?_,
      by rw [ht]; exact hbound, fun heq => absurd (ht ▸ heq) hlast⟩
    rw [hc, show s'.code s.current = l ++ s.code s.current from
      (congrFun (congrArg Sync.code hs') s.current).trans (update_self ..)] at hmem
    rw [ht]
    exact h.later ((List.mem_append.mp hmem).resolve_left harr.no_timerWake)
  · have hne : i ≠ .timerWake → s.ticks ≠ max (start + n) (start + 1) := by
      intro hi heq
      have hhead := h.last heq
      rw [hcode] at hhead
      exact hi (Option.some.inj hhead)
    have hlater : ∀ (hi : i ≠ .timerTick) (ht : s'.ticks = s.ticks),
        .timerWake ∈ s'.code s'.current → start < s'.ticks := by
      intro hi ht hmem
      rw [ht]
      obtain ⟨-, rfl | rfl | ⟨-, hmem⟩⟩ := h.ok.timerWake_mem hcode hn hmem
      · exact absurd rfl hi
      · exact h.later (by simp [hcode])
      · exact h.later hmem
    cases i with
    | sleep m =>
      have ht : t ≠ s.current := by
        rintro rfl
        exact h.ok.current_awake h.mem
      have hlater := hlater (by simp)
      obtain ⟨_, _, -, rfl⟩ := schedule_eq hn
      refine Or.inl ⟨hok, ?_, (update_of_ne ht ..).trans hwakeup, hle, hlater rfl, hbound,
        fun heq => absurd heq (hne (by simp))⟩
      exact (List.mem_orderedInsert _).mpr (Or.inr h.mem)
    | timerTick =>
      have hne := hne (by simp)
      cases hn
      refine Or.inl ⟨hok, h.mem, hwakeup, ?_, fun _ => ?_, ?_, fun _ => ?_⟩
      · show start ≤ s.ticks + 1
        omega
      · show start < s.ticks + 1
        omega
      · show s.ticks + 1 ≤ _
        omega
      · simp [State.push]
    | timerWake =>
      have hlater := hlater (by simp)
      have hstart := h.later (by simp [hcode])
      rcases exec_timerWake hn with ⟨rfl, hnot⟩ | ⟨u, l, hl, hdue, rfl⟩
      · have hlt := h.ok.not_due hnot t h.mem
        refine Or.inl ⟨hok, h.mem, hwakeup, hle, hlater rfl, hbound, fun heq => ?_⟩
        have heq : s.ticks = max (start + n) (start + 1) := heq
        omega
      · have hl : s.sleepList = u :: l := hl
        have hmem := h.mem
        rw [hl] at hmem
        by_cases htu : t = u
        · subst htu
          have hdue : s.wakeupTick t ≤ s.ticks := hdue
          refine Or.inr ⟨?_, rfl, by simp [hcode], by omega, ?_⟩
          · have hnodup := h.ok.wf.queues.sleepNodup
            rw [show s.queues.sleepList = t :: l from hl] at hnodup
            exact (List.nodup_cons.mp hnodup).1
          · exact (List.mem_orderedInsert _).mpr (Or.inl rfl)
        · refine Or.inl ⟨hok, ?_, hwakeup, hle, hlater rfl, hbound, fun _ => by simp [State.push]⟩
          exact (List.mem_cons.mp hmem).resolve_left htu
    | _ =>
      have hclock := exec_clock hn rfl
      simp only [Sched.clock, State.sched, Prod.mk.injEq] at hclock
      obtain ⟨hl, hw, ht⟩ := hclock
      exact Or.inl ⟨hok, hl ▸ h.mem, by rw [hw]; exact hwakeup, by rw [ht]; exact hle,
        hlater (by simp) ht, by rw [ht]; exact hbound,
        fun heq => absurd (ht.symm.trans heq) (hne (by simp))⟩

/-- The sleep list is sorted by `wakeup_tick` and holds the threads blocked in
    `timer_sleep`; the loop of `timer_interrupt` ends and leaves no thread on it
    that is due; and a thread that goes to sleep at tick `s` for `n` ticks is on it
    until the interrupt of tick `max (s + n) (s + 1)` moves it to the ready list. -/
theorem sleep_exact (h : machine.Reachable s) :
    s.sleepList.Pairwise (fun a b => s.wakeupTick a ≤ s.wakeupTick b) ∧
    (∀ t, t ∈ s.sleepList ↔ s.status t = .blocked ∧ (s.code t).head? = some .afterSleep) ∧
    (∀ rest, s.code s.current = .timerWake :: rest →
      ∃ k s', machine.run (fun _ _ => True) s (List.replicate k .run) = some s' ∧
        s'.code s'.current = rest ∧ s'.ticks = s.ticks ∧
        ∀ t ∈ s'.sleepList, s'.ticks < s'.wakeupTick t) ∧
    ∀ n rest s₁, s.code s.current = .sleep n :: rest → machine.next s .run = some s₁ →
      s.current ∈ s₁.sleepList ∧ ∀ z, Asleep s.current s₁ z →
        z.ticks ≤ max (s.ticks + n) (s.ticks + 1) ∧
        (z.ticks = max (s.ticks + n) (s.ticks + 1) →
          (z.code z.current).head? = some .timerWake) ∧
        ∀ a z', machine.next z a = some z' → s.current ∉ z'.sleepList →
          a = .run ∧ (z.code z.current).head? = some .timerWake ∧
          z.ticks = max (s.ticks + n) (s.ticks + 1) ∧ s.current ∈ z'.readyList := by
  have hok := sleepOk_of_reachable h
  refine ⟨hok.sorted.imp fun hle => Int.neg_le_neg_iff.mp hle, hok.wf.queues.sleep,
    fun rest hcode => hok.loop hcode, fun n rest s₁ hcode hn => ?_⟩
  have hstart := Sleeping.of_sleep hok hcode hn
  refine ⟨hstart.mem, fun z hz => ?_⟩
  have hsleeping : Sleeping s.current s.ticks n z := by
    induction hz with
    | start => exact hstart
    | step _ hn hmem ih => exact (ih.step hn).resolve_right fun hleft => hleft.1 hmem
  refine ⟨hsleeping.bound, hsleeping.last, fun a z' hn hleft => ?_⟩
  rcases hsleeping.step hn with hstill | ⟨-, hright⟩
  · exact absurd hstill.mem hleft
  · exact hright

theorem Asleep.run {t : Tid} {y z z' : State} {l : List Label} (h : Asleep t y z)
    (hrun : machine.run (fun s _ => t ∈ s.sleepList) z l = some z') (hmem : t ∈ z'.sleepList) :
    Asleep t y z' := by
  induction l generalizing z with
  | nil =>
    cases hrun
    exact h
  | cons a l ih =>
    rw [System.run] at hrun
    split at hrun
    · obtain ⟨z₁, hn, hrest⟩ := Option.bind_eq_some_iff.mp hrun
      -- the thread is on the list before the next step, or at the end
      have hmem₁ : t ∈ z₁.sleepList := by
        cases l with
        | nil =>
          cases hrest
          exact hmem
        | cons b l =>
          rw [System.run] at hrest
          split at hrest
          · assumption
          · cases hrest
      exact ih (.step h hn hmem₁) hrest
    · cases hrun

/-- The initial thread goes to sleep for two ticks; the second interrupt of the timer wakes
    it. -/
theorem sleep_exact_two : ∃ s s₁ z z', machine.Reachable s ∧ s.code s.current = [.sleep 2] ∧
    machine.next s .run = some s₁ ∧ s.current ∈ s₁.sleepList ∧ Asleep s.current s₁ z ∧
    machine.next z .run = some z' ∧ z.ticks = s.ticks + 2 ∧ s.current ∈ z'.readyList := by
  obtain ⟨s, hs, hp⟩ := System.reachable_of_run (S := machine) boot_initial
    (l := bootLabels ++ [.call (.timerSleep 2)])
    (p := fun s => s.code s.current == [.sleep 2] && (machine.next s .run).any fun s₁ =>
      (machine.run (fun z _ => s.current ∈ z.sleepList) s₁
        [.run, .timer, .run, .run, .run, .timer, .run]).any fun z : State =>
        decide (s.current ∈ z.sleepList) && (machine.next z .run).any fun z' : State =>
          decide (s.current ∉ z'.sleepList)) (by decide)
  simp only [Bool.and_eq_true, beq_iff_eq, Option.any_eq_true, decide_eq_true_eq] at hp
  obtain ⟨hcode, s₁, hn, z, hrun, hmem, z', hn', hleft⟩ := hp
  obtain ⟨hstart, hwakes⟩ := (sleep_exact hs).2.2.2 2 [] s₁ hcode hn
  have hz : Asleep s.current s₁ z := Asleep.start.run hrun hmem
  obtain ⟨-, -, hticks, hready⟩ := (hwakes z hz).2.2 .run z' hn' hleft
  refine ⟨s, s₁, z, z', hs, hcode, hn, hstart, hz, hn', ?_, hready⟩
  omega

end Pintos.Threads
