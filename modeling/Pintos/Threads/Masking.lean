/-
  Pintos.Threads.Masking

  Interrupts are off where the source relies on it: from `intr_disable` to
  `intr_set_level` in `sema_down`, `sema_up`, `lock_acquire` and `timer_sleep`,
  and in an interrupt handler.  A section is not left by an interrupt, and the
  thread that runs after a switch begins with interrupts off.
-/

import Pintos.Threads.ReadyQueue

namespace Pintos.Threads

open Pintos.Base

/-- The instructions inside such a section. -/
def Instr.masked : Instr → Bool
  | .propagate _ _ | .lockDown _ | .lockRetry _ | .semaRetry _ | .afterBlock | .afterSleep
  | .upTest _ | .idleHlt | .timerTick | .timerWake | .intrSemaUp _ | .intrReturn => true
  | _ => false

/-- The instructions that leave the interrupt level as it is. -/
def Instr.keepsLevel : Instr → Bool
  | .propagate _ _ | .timerTick | .timerWake | .intrSemaUp _ | .semaTryDown _ | .unblock _ => true
  | _ => false

/-- The list begins inside a section. -/
def off : List Instr → Bool
  | [] => false
  | i :: l => i.masked || (i.keepsLevel && off l)

/-- A section is entered at its beginning only. -/
def guarded : List Instr → Bool
  | [] => true
  | i :: l => guarded l && (!off l || i.keepsLevel)

/-- A section behind the beginning of the list begins with the list. -/
theorem off_of_mem {x : Instr} {l : List Instr} (hg : guarded l = true) (hx : x ∈ l)
    (hm : x.masked = true) : off l = true := by
  induction l with
  | nil => cases hx
  | cons i l ih =>
    simp only [guarded, Bool.and_eq_true, Bool.or_eq_true, Bool.not_eq_true'] at hg
    rcases List.mem_cons.mp hx with rfl | hx
    · simp [off, hm]
    · have hoff := ih hg.1 hx
      simp [hoff] at hg
      simp [off, hoff, hg]

structure Masked (s : State) : Prop where
  guarded : ∀ t, guarded (s.code t) = true
  off : s.intr = true → off (s.code s.current) = false

variable {s s' : State} {i : Instr} {rest : List Instr}

theorem Instr.switches_of_keepsLevel (h : i.keepsLevel = true) : i.switches = false := by
  cases i <;> first | rfl | cases h

/-- The current thread changes with interrupts off. -/
theorem exec_current (hn : exec s i = some s') : s'.current = s.current ∨
    i.switches = true ∧ (s'.intr = false ∨ i.masked = true ∧ s'.intr = s.intr) := by
  cases exec_dispatch hn with
  | keep _ h | tick h | wake _ _ h | create _ h => exact Or.inl (congrArg Sched.current h)
  | prioritise t p _ _ h =>
    rw [setPriority_sched] at h
    exact Or.inl (congrArg Sched.current h)
  | block hi _ hlevel hb =>
    have hintr := congrArg Sync.intr (threadBlock_sync hb)
    refine Or.inr ⟨hi, hlevel.imp hintr.trans ?_⟩
    rintro ⟨hz, l, rfl | rfl⟩
    · exact ⟨rfl, hintr.trans hz⟩
    · exact ⟨rfl, hintr.trans hz⟩
  | sleep n _ hlevel hb =>
    exact Or.inr ⟨rfl, Or.inl ((congrArg Sync.intr (threadBlock_sync hb)).trans hlevel)⟩
  | yield hy => exact Or.inr ⟨rfl, Or.inl (congrArg Sync.intr (threadYield_sync hy))⟩

/-- An instruction keeps the sections. -/
theorem Effect.masked {y : Sync} (hall : ∀ t, Threads.guarded (s.code t) = true)
    (hcode : s.code s.current = i :: rest) (hfresh : s.current ≠ s.threadCnt)
    (hoff : s.intr = true → Threads.off (s.code s.current) = false)
    (h : Effect (s.pop rest) i y) :
    (∀ t, Threads.guarded (y.code t) = true) ∧
      (y.intr = true → Threads.off (y.code s.current) = false) := by
  have hguarded := hall s.current
  rw [hcode] at hguarded hoff
  simp only [Threads.guarded, Bool.and_eq_true, Bool.or_eq_true, Bool.not_eq_true'] at hguarded
  obtain ⟨hrest, hkeep⟩ := hguarded
  -- the instruction leaves `l` behind
  suffices hl : ∃ l, Threads.guarded (l ++ rest) = true ∧
      (y.intr = true → Threads.off (l ++ rest) = false) ∧ y.code s.current = l ++ rest by
    obtain ⟨l, hg, ho, hc⟩ := hl
    refine ⟨fun t => ?_, fun hi => hc ▸ ho hi⟩
    by_cases ht : t = s.current
    · rw [ht, hc]
      exact hg
    · rcases h.code_other ht with hc | ⟨-, hc⟩
      · rw [hc]
        exact hall t
      · rw [hc]
        rfl
  have hself := State.pop_push_current s rest
  have hlevel : (s.pop rest).intr = s.intr := rfl
  have hnil : (s.pop rest).code s.current = [] ++ rest := State.pop_current ..
  cases h with
  | @quiet _ l b h =>
    refine ⟨l, ?_, ?_, hself l⟩
    · cases h <;> simp_all [Threads.guarded, Threads.off, Instr.masked, Instr.keepsLevel]
    · cases h <;> simp_all [Threads.off, Instr.masked, Instr.keepsLevel]
  | intrReturn | setOriginal | updatePriority | tryDown | trySet | condPush | condRemove =>
    refine ⟨[], hrest, ?_, hnil⟩
    simp_all [Threads.off, Instr.masked, Instr.keepsLevel, State.sync, State.setValue]
  | take m hi | upNone m hi | lockTake l hi =>
    refine ⟨[], hrest, ?_, hnil⟩
    rcases hi with rfl | rfl <;>
      simp_all [Threads.off, Instr.masked, Instr.keepsLevel, State.sync, State.setValue]
  | timerTick | intrYield | propagate | donate | tryAcquire | release =>
    refine ⟨_, ?_, ?_, hself _⟩ <;>
      simp_all [Threads.guarded, Threads.off, Instr.masked, Instr.keepsLevel, State.sync,
        State.push, State.pop, State.setValue]
  | create p =>
    refine ⟨[.acquire tidLock, .release tidLock, .createUnblock s.threadCnt,
      .createTest s.threadCnt], ?_, ?_, newThread_push_current hfresh _⟩
    · simp_all [Threads.guarded, Threads.off, Instr.masked, Instr.keepsLevel]
    · simp [Threads.off, Instr.masked, Instr.keepsLevel]
  | wait m hi | lockWait l hi =>
    refine ⟨_, ?_, ?_, hself _⟩ <;>
      rcases hi with rfl | rfl <;>
      simp_all [Threads.guarded, Threads.off, Instr.masked, Instr.keepsLevel, State.sync,
        State.push, State.pop]
  | up m t l hi =>
    refine ⟨l, ?_, ?_, hself l⟩ <;>
      rcases hi with ⟨rfl, rfl⟩ | ⟨rfl, rfl⟩ <;>
      simp_all [Threads.guarded, Threads.off, Instr.masked, Instr.keepsLevel]

theorem Op.code_guarded (op : Op) (t : Tid) :
    Threads.guarded (op.code t) = true ∧ Threads.off (op.code t) = false := by
  cases op <;> exact ⟨rfl, rfl⟩

theorem Masked.interrupt {l : List Instr} (h : Masked s) (hl : ∀ x ∈ l, x.keepsLevel = true)
    (hn : interrupt s l = some s') : Masked s' := by
  simp only [Threads.interrupt] at hn
  split at hn
  · rename_i hi
    cases hn
    refine ⟨fun t => ?_, fun hi' => by cases hi'⟩
    by_cases ht : t = s.current
    · subst ht
      have hon := h.off hi
      have hg := h.guarded s.current
      simp only [State.push, Function.update_self, List.append_assoc]
      clear hi
      induction l with
      | nil => simp [Threads.guarded, hon, hg]
      | cons x l ih =>
        have := ih fun y hy => hl y (List.mem_cons_of_mem _ hy)
        rw [List.cons_append, Threads.guarded, this, hl x List.mem_cons_self]
        simp
    · simpa [State.push, ht] using h.guarded t
  · cases hn

theorem Masked.next {a : Label} (hwf : Wf s) (h : Masked s) (hn : next s a = some s') :
    Masked s' := by
  cases a with
  | call op =>
    simp only [Threads.next] at hn
    split at hn
    · rename_i hcode
      cases hn
      obtain ⟨hg, ho⟩ := op.code_guarded s.current
      refine ⟨fun t => ?_, fun _ => ?_⟩
      · by_cases ht : t = s.current
        · subst ht
          simpa [State.push, hcode] using hg
        · simpa [State.push, ht] using h.guarded t
      · simpa [State.push, hcode] using ho
    · cases hn
  | run =>
    simp only [Threads.next] at hn
    split at hn
    · cases hn
    · rename_i i rest hcode
      obtain ⟨hg, ho⟩ := (exec_effect hn).masked h.guarded hcode hwf.queues.current_ne_fresh h.off
      refine ⟨hg, fun hi => ?_⟩
      -- a thread that is switched to begins with interrupts off
      rcases exec_current hn with hc | ⟨-, hc | ⟨hm, hc⟩⟩
      · rw [hc]
        exact ho hi
      · rw [hc] at hi
        cases hi
      · have hoff := h.off (hc ▸ hi)
        simp [hcode, Threads.off, hm] at hoff
  | timer => exact h.interrupt (by simp [Instr.keepsLevel]) hn
  | device l =>
    refine h.interrupt ?_ hn
    intro y hy
    obtain ⟨x, -, rfl⟩ := List.mem_map.mp hy
    cases x <;> rfl

theorem Initial.masked (h : Initial s) : Masked s := by
  refine ⟨fun t => ?_, fun _ => ?_⟩
  · rw [h.code]
    simp only
    split
    · rfl
    · split <;> rfl
  · rw [h.code, h.current]
    rfl

theorem masked_of_reachable (h : machine.Reachable s) : Masked s := by
  suffices Wf s ∧ Masked s from this.2
  exact System.Reachable.invariant (I := fun s => Wf s ∧ Masked s)
    (fun _ hs => ⟨Initial.wf hs, Initial.masked hs⟩)
    (fun _ _ _ hs hn => ⟨hs.1.next hn, hs.2.next hs.1 hn⟩) h

/-- Interrupts are off while the running thread is inside a section or in a handler. -/
theorem sections_masked (h : machine.Reachable s) (hcode : off (s.code s.current) = true) :
    s.intr = false := by
  have hoff := (masked_of_reachable h).off
  rw [hcode] at hoff
  exact Bool.eq_false_iff.mpr fun hi => by cases hoff hi

/-- The handler of a device tries to down a semaphore and unblocks the idle thread. -/
theorem sections_masked_device : ∃ s, machine.Reachable s ∧
    s.code s.current = [.semaTryDown (.plain 5), .unblock 1, .intrReturn] ∧ s.intr = false := by
  obtain ⟨s, hs, hp⟩ := System.reachable_of_run boot_initial (S := machine)
    (l := bootLabels ++ [.device [.semaTryDown 5, .unblock 1]])
    (p := fun s => s.code s.current == [.semaTryDown (.plain 5), .unblock 1, .intrReturn])
    (by decide)
  have hcode := beq_iff_eq.mp hp
  exact ⟨s, hs, hcode, sections_masked hs (by rw [hcode]; rfl)⟩

end Pintos.Threads
