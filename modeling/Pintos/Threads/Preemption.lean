/-
  Pintos.Threads.Preemption

  Strict priority scheduling.  A ready thread of a higher priority than the
  current one is excused as long as the current thread still has to do something
  about it: to yield, to compare priorities in `sema_up`, `thread_create` or
  `thread_set_priority`, or to return from an interrupt that asks for a yield.
  An interrupt handler that makes such a thread ready without asking for a
  yield, and a `lock_release` that gives up a priority nobody stands for, break
  this.
-/

import Pintos.Threads.Donors

namespace Pintos.Threads

open Pintos.Base Function

variable {s s' : State} {i : Instr} {rest : List Instr} {y : Sync} {u : Tid} {a : Label}
  {l : LockId}

/-! ## Who becomes ready -/

/-- After a switch no ready thread has a higher priority. -/
theorem schedule_top (hd : Descending s.priority s.readyList) (hn : schedule s = some s') :
    ∀ u ∈ s'.readyList, s'.priority u ≤ s'.priority s'.current := by
  obtain ⟨n, l, hnext, rfl⟩ := schedule_eq hn
  rcases hnext with hl | ⟨-, rfl, -⟩
  · intro u hu
    have hl : s.readyList = n :: l := hl
    rw [hl] at hd
    exact hd.head (List.mem_cons_of_mem _ hu)
  · intro u hu
    cases hu

theorem threadYield_top (hd : Descending s.priority s.readyList) (hn : threadYield s = some s') :
    ∀ u ∈ s'.readyList, s'.priority u ≤ s'.priority s'.current := by
  refine schedule_top ?_ hn
  simp only [State.setStatus]
  split
  · exact hd
  · exact hd.orderedInsert (threadCmp_iff s) s.current

theorem mem_readyInsert {t : Tid} : u ∈ (readyInsert s t).readyList ↔ u = t ∨ u ∈ s.readyList :=
  List.mem_orderedInsert _

theorem setPriority_mem {t : Tid} {p : Int} (h : u ∈ (setPriority s t p).readyList)
    (ht : s.status t = .ready → t ∈ s.readyList) : u ∈ s.readyList := by
  simp only [setPriority] at h
  split at h
  · rename_i hr
    rcases mem_readyInsert.mp h with rfl | h
    · exact ht hr
    · exact List.mem_of_mem_erase h
  · exact h

/-- An instruction switches to the first of the ready threads, or makes at most
    the threads ready that it is meant to. -/
theorem exec_ready (hd : Descending s.priority s.readyList)
    (hready : ∀ t, s.status t = .ready → s.idleThread ≠ some t → t ∈ s.readyList)
    (hholder : ∀ l t, s.holder l = some t → s.idleThread ≠ some t)
    (hrun : s.status s.current = .running)
    (hn : exec s i = some s') :
    (∀ u ∈ s'.readyList, s'.priority u ≤ s'.priority s'.current) ∨
      i ≠ .yield ∧ s'.current = s.current ∧
        ∀ u ∈ s'.readyList, u ∈ s.readyList ∨ Readied s s' u i := by
  have hblock : ∀ {z : State}, z.priority = s.priority → z.readyList = s.readyList →
      threadBlock z = some s' → ∀ u ∈ s'.readyList, s'.priority u ≤ s'.priority s'.current := by
    intro z hp hz hn
    refine schedule_top (s := z.setStatus z.current .blocked) ?_ hn
    show Descending z.priority z.readyList
    rwa [hp, hz]
  have hmem : ∀ {l : List Tid}, s'.readyList = l → ∀ u ∈ s'.readyList, u ∈ l :=
    fun hl u hu => hl ▸ hu
  cases exec_dispatch hn with
  | yield hy => exact Or.inl (threadYield_top (s := { s with intr := false }) hd hy)
  | block _ hz _ hb | sleep _ hz _ hb =>
    exact Or.inl (hblock (congrArg Sched.priority hz) (congrArg Sched.readyList hz) hb)
  | keep hi h =>
    exact Or.inr ⟨hi, congrArg Sched.current h, fun u hu =>
      Or.inl (hmem (congrArg Sched.readyList h) u hu)⟩
  | tick h | create _ h =>
    exact Or.inr ⟨nofun, congrArg Sched.current h, fun u hu =>
      Or.inl (hmem (congrArg Sched.readyList h) u hu)⟩
  | wake t hi h =>
    refine Or.inr ⟨?_, congrArg Sched.current h, fun u hu => ?_⟩
    · rintro rfl
      cases hi
    · rcases mem_readyInsert.mp (hmem (congrArg Sched.readyList h) u hu) with rfl | hu
      · exact Or.inr hi
      · exact Or.inl hu
  | prioritise t p hi ht h =>
    have hcur := congrArg Sched.current (h.trans (setPriority_sched ..))
    refine Or.inr ⟨hi, hcur, fun u hu => Or.inl ?_⟩
    refine setPriority_mem (t := t) (p := p) (hmem (congrArg Sched.readyList h) u hu) fun hr => ?_
    rcases ht with rfl | ⟨l, hl⟩
    · rw [hrun] at hr
      cases hr
    · exact hready t hr (hholder l t hl)

/-! ## Pending comparisons -/

/-- What an instruction will do about a ready thread `u` of a higher priority. -/
def Instr.excuses (y : Sync) (cur u : Tid) : Instr → Prop
  | .yield | .setTest => True
  | .createTest t => t = u
  | .upTest t => t ≠ cur ∧ y.priority u ≤ y.priority t
  | .semaUp (.lock l) => ∃ w ∈ y.waiters (.lock l), y.priority u ≤ y.priority w
  | .intrReturn => y.yieldOnReturn = true
  | _ => False

def Excused (y : Sync) (cur u : Tid) : Prop :=
  cur = idleTid ∨ ∃ x ∈ y.code cur, x.excuses y cur u

/-- No ready thread has a higher priority than the current one without an
    excuse. -/
def Strict (s : State) : Prop :=
  ∀ u ∈ s.readyList, s.priority u ≤ s.priority s.current ∨ Excused s.sync s.current u

theorem Effect.yieldOnReturn (h : Effect (s.pop rest) i y) (hy : s.yieldOnReturn = true) :
    y.yieldOnReturn = true := by
  cases h with
  | timerTick => simp [State.pop, hy]
  | _ => exact hy

/-! ## The code after a comparison -/

/-- `thread_create` compares after it has unblocked the new thread, and
    `thread_set_priority` after it has set the priority. -/
def compares : List Instr → Prop
  | [] => True
  | i :: l => compares l ∧ (∀ t, i = .createUnblock t → .createTest t ∈ l) ∧
    (i = .updatePriority → .setTest ∈ l)

theorem compares_append {l : List Instr} (hrest : compares rest)
    (hl : ∀ x ∈ l, (∀ t, x ≠ .createUnblock t) ∧ x ≠ .updatePriority) : compares (l ++ rest) := by
  induction l with
  | nil => exact hrest
  | cons x l ih =>
    obtain ⟨h₁, h₂⟩ := hl x List.mem_cons_self
    refine ⟨ih fun z hz => hl z (List.mem_cons_of_mem _ hz), fun t ht => absurd ht (h₁ t),
      fun ht => absurd ht h₂⟩

theorem Effect.compares (hall : ∀ t, compares (s.code t)) (hcode : s.code s.current = i :: rest)
    (hfresh : s.current ≠ s.threadCnt) (h : Effect (s.pop rest) i y) (t : Tid) :
    compares (y.code t) := by
  have hrest : Threads.compares rest := by
    have := hall s.current
    rw [hcode] at this
    exact this.1
  by_cases ht : t = s.current
  · subst ht
    obtain ⟨l, hl, hl'⟩ := h.pushes hfresh
    rw [hl']
    cases hl with
    | quiet h => exact compares_append hrest (by cases h <;> simp)
    | create p => simp [Threads.compares, hrest]
    | _ => exact compares_append hrest (by simp)
  · rcases h.code_other ht with hc | ⟨-, hc⟩
    · rw [hc]
      exact hall t
    · rw [hc]
      simp [Threads.compares]

/-! ## Interrupt handlers -/

/-- The list begins with the rest of an interrupt handler. -/
def handling : List Instr → Bool
  | [] => false
  | i :: l => i = .intrReturn || (i.keepsLevel && handling l)

theorem handling_mem {l : List Instr} (h : handling l = true) : .intrReturn ∈ l := by
  induction l with
  | nil => cases h
  | cons i l ih =>
    simp only [handling, Bool.or_eq_true, decide_eq_true_eq, Bool.and_eq_true] at h
    rcases h with rfl | ⟨-, h⟩
    · exact List.mem_cons_self
    · exact List.mem_cons_of_mem _ (ih h)

theorem handling_append {l : List Instr} (h : handling rest = true)
    (hl : ∀ x ∈ l, x.keepsLevel = true) : handling (l ++ rest) = true := by
  induction l with
  | nil => exact h
  | cons x l ih =>
    simp [handling, hl x List.mem_cons_self, ih fun z hz => hl z (List.mem_cons_of_mem _ hz)]

theorem Effect.inIntr (h : Effect (s.pop rest) i y) (hy : y.inIntr = true) :
    s.inIntr = true ∧ i ≠ .intrReturn := by
  cases h with
  | quiet h => exact ⟨hy, by rintro rfl; cases h⟩
  | wait _ hi | take _ hi | upNone _ hi | lockWait _ hi | lockTake _ hi =>
    exact ⟨hy, by rintro rfl; rcases hi with hi | hi <;> cases hi⟩
  | up _ _ _ hi => exact ⟨hy, by rintro rfl; rcases hi with ⟨hi, -⟩ | ⟨hi, -⟩ <;> cases hi⟩
  | intrReturn | intrYield => cases hy
  | _ => exact ⟨hy, by simp⟩

/-- An instruction of a handler goes on with the handler. -/
theorem Pushes.keepsLevel {l : List Instr} (h : Pushes s i l) (hi : i.keepsLevel = true) :
    ∀ x ∈ l, x.keepsLevel = true := by
  cases h with
  | quiet h => cases h <;> simp_all [Instr.keepsLevel]
  | wait _ hi' | lockWait _ hi' => rcases hi' with rfl | rfl <;> cases hi
  | nothing | timerTick | propagate => simp [Instr.keepsLevel]
  | _ => cases hi

def Handled (s : State) : Prop := s.inIntr = true → handling (s.code s.current) = true

theorem Handled.next (hwf : Wf s) (h : Handled s) (hn : next s a = some s') : Handled s' := by
  intro hi
  rcases next_cases hn with ⟨l, b, c, d, harr, hc, -, hs'⟩ | ⟨i, rest, -, hcode, hn⟩
  · have hcode' : s'.code s'.current = l ++ s.code s.current := by
      rw [hc, show s'.code = _ from congrArg Sync.code hs']
      exact update_self ..
    rw [hcode']
    have hi : c = true := (congrArg Sync.inIntr hs').symm.trans hi
    cases harr with
    | call op hnil =>
      have := h hi
      rw [hnil] at this
      cases this
    | timer => rfl
    | device l =>
      rw [List.append_assoc]
      refine handling_append rfl fun x hx => ?_
      obtain ⟨z, -, rfl⟩ := List.mem_map.mp hx
      cases z <;> rfl
  · obtain ⟨hi, hne⟩ := (exec_effect hn).inIntr hi
    have hh := h hi
    rw [hcode] at hh
    simp only [handling, hne, decide_false, Bool.false_or, Bool.and_eq_true] at hh
    have hc : s'.current = s.current := by
      refine (exec_current hn).resolve_right fun hsw => ?_
      rw [Instr.switches_of_keepsLevel hh.1] at hsw
      cases hsw.1
    obtain ⟨l, hl, hl'⟩ := (exec_effect hn).pushes hwf.queues.current_ne_fresh
    rw [hc, show s'.code s.current = l ++ rest from hl']
    exact handling_append hh.2 (hl.keepsLevel hh.1)

/-! ## The condition -/

/-- A thread that becomes ready now does not make the current thread wait for the
    end of its time slice. -/
def Tolerated (s : State) (t : Tid) : Prop :=
  s.priority t ≤ s.priority s.current ∨ s.current = idleTid ∨
    s.inIntr = true ∧ s.yieldOnReturn = true

/-- The priority of the current thread is its own, that of a donor waiting for
    another lock, or that of a thread waiting for this lock. -/
def Backed (s : State) (l : LockId) : Prop :=
  s.priority s.current ≤ s.originalPriority s.current ∨
    (∃ d ∈ s.donorThreads s.current, s.blockingLock d ≠ some l ∧
      s.priority s.current ≤ s.priority d) ∨
    ∃ w ∈ s.waiters (.lock l), s.priority s.current ≤ s.priority w

/-- Interrupt handlers and direct calls of `thread_unblock` make only tolerated
    threads ready, and `lock_release` is called with a priority that somebody
    stands for. -/
def preemptive (s : State) : Label → Prop
  | .run =>
    match s.code s.current with
    | .timerWake :: _ => ∀ t ∈ s.sleepList.head?, s.wakeupTick t ≤ s.ticks → Tolerated s t
    | .intrSemaUp m :: _ => ∀ t ∈ s.waiters m, Tolerated s t
    | .unblock t :: _ => Tolerated s t
    | .release l :: _ => Backed s l
    | _ => True
  | _ => True

instance (s : State) (t : Tid) : Decidable (Tolerated s t) := inferInstanceAs (Decidable (_ ∨ _))

instance (s : State) (l : LockId) : Decidable (Backed s l) := inferInstanceAs (Decidable (_ ∨ _))

instance (s : State) (a : Label) : Decidable (preemptive s a) := by
  apply @Label.casesOn _ a
  case run =>
    delta preemptive
    generalize s.code s.current = code
    apply @List.casesOn _ _ code
    case nil => exact instDecidableTrue
    case cons =>
      intro i rest
      apply @Instr.casesOn _ i <;> intros <;> dsimp only <;> infer_instance
  all_goals intros; exact instDecidableTrue

/-! ## Excuses are kept or settled -/

/-- An excuse survives a step that keeps priorities, waiters and the request for
    a yield. -/
theorem Instr.excuses.mono {y y' : Sync} {cur : Tid} {x : Instr} (h : x.excuses y cur u)
    (hu : y'.priority u ≤ y.priority u)
    (hprio : ∀ t, t ≠ cur → x = .upTest t ∨ (∃ l, t ∈ y.waiters (.lock l)) →
      y.priority t ≤ y'.priority t)
    (hwait : ∀ l, x = .semaUp (.lock l) → ∀ w ∈ y.waiters (.lock l),
      w ≠ cur ∧ w ∈ y'.waiters (.lock l))
    (hyield : y.yieldOnReturn = true → y'.yieldOnReturn = true) : x.excuses y' cur u := by
  cases x with
  | upTest t => exact ⟨h.1, hu.trans (h.2.trans (hprio t h.1 (Or.inl rfl)))⟩
  | semaUp m =>
    cases m with
    | lock l =>
      obtain ⟨w, hw, hle⟩ := h
      obtain ⟨hne, hw'⟩ := hwait l rfl w hw
      exact ⟨w, hw', hu.trans (hle.trans (hprio w hne (Or.inr ⟨l, hw⟩)))⟩
    | _ => exact h
  | intrReturn => exact hyield h
  | _ => exact h

/-- An instruction that is an excuse compares the priorities, or goes on to
    yield. -/
theorem Strict.settle (hd : Descending s.priority s.readyList) (hu : u ∈ s.readyList)
    (hx : i.excuses s.sync s.current u) (hi : i ≠ .yield) (hlock : ∀ l, i ≠ .semaUp (.lock l))
    (hn : exec (s.pop rest) i = some s') :
    s'.priority u ≤ s'.priority s.current ∨ .yield ∈ s'.code s.current := by
  have hpush : ∀ s₁ : State, s₁.current = s.current →
      Instr.yield ∈ (s₁.push [.yield, .intrOn]).code s.current := by
    rintro s₁ hc
    rw [← hc]
    simp [State.push]
  cases i with
  | setTest =>
    simp only [exec] at hn
    split at hn
    · rename_i hnil
      have hnil : s.readyList = [] := hnil
      simp [hnil] at hu
    · rename_i t l hl
      have hl : s.readyList = t :: l := hl
      split at hn
      · cases hn
        exact Or.inr (hpush (s.pop rest) rfl)
      · rename_i hle
        cases hn
        rw [hl] at hd hu
        exact Or.inl ((hd.head hu).trans (not_lt.mp hle))
  | createTest t =>
    simp only [exec] at hn
    split at hn
    · cases hn
      exact Or.inr (hpush (s.pop rest) rfl)
    · rename_i hle
      cases hn
      have hx : t = u := hx
      exact Or.inl (hx ▸ not_lt.mp hle)
  | upTest t =>
    simp only [exec] at hn
    split at hn
    · cases hn
      exact Or.inr (hpush (s.pop rest) rfl)
    · rename_i hle
      cases hn
      exact Or.inl (hx.2.trans (not_lt.mp hle))
  | intrReturn =>
    have hy : (s.pop rest).yieldOnReturn = true := hx
    simp only [exec, hy, if_true, Option.some.injEq] at hn
    subst hn
    exact Or.inr (hpush { s.pop rest with inIntr := false } rfl)
  | semaUp m =>
    cases m with
    | lock l => exact absurd rfl (hlock l)
    | _ => cases hx
  | yield => exact absurd rfl hi
  | _ => cases hx

theorem release_sync (hn : exec s (.release l) = some s') :
    s'.sync = { (s.push [.semaUp (.lock l)]).sync with
      donorThreads := (donorsKept s l).donorThreads
      holder := update s.holder l none
      priority := update s.priority s.current (maxPriority (donorsKept s l) s.current) } := by
  simp only [exec] at hn
  split at hn <;> cases hn
  rw [lockRelease, State.push_sync _ (threadUpdatePriority_sync ..)
    (threadUpdatePriority_current ..)]
  rfl

theorem Backed.le_or (h : Backed s l) (rest : List Instr) :
    s.priority s.current ≤ maxPriority (donorsKept (s.pop rest) l) s.current ∨
      ∃ w ∈ s.waiters (.lock l), s.priority s.current ≤ s.priority w := by
  rcases h with h | ⟨d, hd, hne, hle⟩ | h
  · exact Or.inl (h.trans (le_maxPriority_original (donorsKept (s.pop rest) l) s.current))
  · refine Or.inl (hle.trans (le_maxPriority_donor (s := donorsKept (s.pop rest) l) ?_))
    simp only [donorsKept, State.pop, update_self]
    exact List.mem_filter.mpr ⟨hd, decide_eq_true hne⟩
  · exact Or.inr h

/-- `lock_release` gives up the priority of the threads that wait for the lock,
    and one of them is about to be unblocked. -/
theorem Strict.release (hwf : Wf s) (hs : Strict s)
    (hcode : s.code s.current = .release l :: rest) (hb : Backed s l) (hu : u ∈ s.readyList)
    (hne : u ≠ s.current) (hn : exec (s.pop rest) (.release l) = some s') :
    s'.priority u ≤ s'.priority s.current ∨ Excused s'.sync s.current u := by
  have hsync := release_sync hn
  have hprio : ∀ t, t ≠ s.current → s'.priority t = s.priority t := fun t ht =>
    (congrFun (congrArg Sync.priority hsync) t).trans (update_of_ne ht ..)
  have hcur : s'.priority s.current = maxPriority (donorsKept (s.pop rest) l) s.current :=
    (congrFun (congrArg Sync.priority hsync) s.current).trans (update_self ..)
  have hwait : s'.waiters = s.waiters := congrArg Sync.waiters hsync
  have hcode' : s'.code s.current = .semaUp (.lock l) :: rest :=
    (congrFun (congrArg Sync.code hsync) s.current).trans (State.pop_push_current s rest [_])
  rcases hs u hu with hle | hidle | ⟨x, hx, hex⟩
  · rcases hb.le_or rest with hmax | ⟨w, hw, hmax⟩
    · exact Or.inl (by rw [hprio u hne, hcur]; exact hle.trans hmax)
    · refine Or.inr (Or.inr ⟨.semaUp (.lock l), ?_, w, ?_, ?_⟩)
      · show _ ∈ s'.code s.current
        simp [hcode']
      · exact (show s'.sync.waiters = _ from hwait) ▸ hw
      · have hwc : w ≠ s.current := by
          rintro rfl
          exact hwf.not_waiting _ hw
        show s'.priority u ≤ s'.priority w
        rw [hprio u hne, hprio w hwc]
        exact hle.trans hmax
  · exact Or.inr (Or.inl hidle)
  · have hx : x ∈ s.code s.current := hx
    rw [hcode] at hx
    rcases List.mem_cons.mp hx with rfl | hx
    · cases hex
    · refine Or.inr (Or.inr ⟨x, ?_, hex.mono (hprio u hne).le
        (fun t ht _ => (hprio t ht).ge) (fun l' _ w hw => ⟨?_, ?_⟩) ?_⟩)
      · show x ∈ s'.code s.current
        simp [hcode', hx]
      · rintro rfl
        exact hwf.not_waiting _ hw
      · exact (show s'.sync.waiters = _ from hwait) ▸ hw
      · exact fun hy => (congrArg Sync.yieldOnReturn hsync).trans hy

/-- `sema_up` in `lock_release` unblocks the waiter of the highest priority and
    compares its priority. -/
theorem Strict.upLock (hwf : Wf s) (hs : Strict s)
    (hcode : s.code s.current = .semaUp (.lock l) :: rest) (hu : u ∈ s.readyList)
    (heff : Effect (s.pop rest) (.semaUp (.lock l)) y) :
    y.priority u ≤ y.priority s.current ∨ Excused y s.current u := by
  have hwc : ∀ m w, w ∈ s.waiters m → w ≠ s.current := by
    rintro m w hw rfl
    exact hwf.not_waiting m hw
  rcases hs u hu with hle | hidle | ⟨x, hx, hex⟩
  · refine Or.inl ?_
    rcases heff.semaUp_cases with ⟨-, rfl⟩ | ⟨t, -, -, rfl⟩ <;> exact hle
  · exact Or.inr (Or.inl hidle)
  · have hx : x ∈ s.code s.current := hx
    rw [hcode] at hx
    refine Or.inr (Or.inr ?_)
    rcases heff.semaUp_cases with ⟨hnil, rfl⟩ | ⟨t, ht, hmax, rfl⟩
    · have hcode' : ((s.pop rest).setValue (.lock l)
          (((s.pop rest).value (.lock l) + 1) % 2 ^ 32)).sync.code s.current = rest :=
        State.pop_current s rest
      rcases List.mem_cons.mp hx with rfl | hx
      · obtain ⟨w, hw, -⟩ := hex
        exact absurd hw (by rw [show s.sync.waiters (.lock l) = [] from hnil]; simp)
      · exact ⟨x, by rw [hcode']; exact hx, hex.mono le_rfl (fun _ _ _ => le_rfl)
          (fun l' _ w hw => ⟨hwc _ w hw, hw⟩) id⟩
    · have hcode' := State.pop_push_current s rest [.upTest t]
      by_cases hxl : x = .semaUp (.lock l)
      · -- what the semaphore excused is now excused by the comparison
        subst hxl
        obtain ⟨w, hw, hle⟩ := hex
        refine ⟨.upTest t, ?_, hwc _ t ht, hle.trans (hmax w hw)⟩
        show Instr.upTest t ∈ ((s.pop rest).push [.upTest t]).code s.current
        simp [hcode']
      · have hx : x ∈ rest := (List.mem_cons.mp hx).resolve_left hxl
        refine ⟨x, ?_, hex.mono le_rfl (fun _ _ _ => le_rfl) (fun l' hl' w hw => ⟨hwc _ w hw, ?_⟩) id⟩
        · show x ∈ ((s.pop rest).push [.upTest t]).code s.current
          simp [hcode', hx]
        · have hne : SemaId.lock l' ≠ .lock l := fun h => hxl (h ▸ hl')
          show w ∈ update s.waiters (.lock l) _ (.lock l')
          rw [update_of_ne hne]
          exact hw

/-- A ready thread stays excused, or is settled. -/
theorem Strict.old (hwf : Wf s) (hm : Masked s) (hd : Descending s.priority s.readyList)
    (hcmp : ∀ t, compares (s.code t)) (hs : Strict s) (hok : preemptive s .run)
    (hcode : s.code s.current = i :: rest) (hu : u ∈ s.readyList) (hi : i ≠ .yield)
    (hn : exec (s.pop rest) i = some s') :
    s'.priority u ≤ s'.priority s.current ∨ Excused s'.sync s.current u := by
  have heff := exec_effect hn
  have hstatus : s.status u = .ready := ((hwf.queues.ready u).mp hu).1
  have hrun : s.status s.current = .running := hwf.queues.running
  have hfresh := hwf.queues.current_ne_fresh
  have hne : u ≠ s.current := by
    rintro rfl
    rw [hrun] at hstatus
    cases hstatus
  have hnew : u ≠ s.threadCnt := by
    rintro rfl
    rw [show s.status s.threadCnt = .dying from (hwf.queues.fresh _ le_rfl).1] at hstatus
    cases hstatus
  obtain ⟨l, -, hcode'⟩ := heff.pushes hfresh
  by_cases hupd : i = .updatePriority
  · -- `thread_set_priority` compares at its end
    subst hupd
    have hcmp := hcmp s.current
    rw [hcode] at hcmp
    refine Or.inr (Or.inr ⟨.setTest, ?_, trivial⟩)
    rw [hcode']
    exact List.mem_append_right _ (hcmp.2.2 rfl)
  by_cases hrel : ∃ k, i = .release k
  · obtain ⟨k, rfl⟩ := hrel
    refine hs.release hwf hcode ?_ hu hne hn
    simpa only [preemptive, hcode] using hok
  by_cases hup : ∃ k, i = .semaUp (.lock k)
  · obtain ⟨k, rfl⟩ := hup
    exact hs.upLock hwf hcode hu heff
  have hcur : s'.priority s.current = s.priority s.current := by
    rcases heff.priority s.current with h | ⟨-, h⟩ | ⟨h, -⟩ | ⟨h, -⟩
    · exact h
    · exact absurd h (by simp [hupd, hrel])
    · exact absurd rfl h
    · exact absurd h hfresh
  have hraise : ∀ t, t ≠ s.current → (t = s.threadCnt → ∀ p, i ≠ .create p) →
      s'.priority t = s.priority t ∨ s.priority t ≤ s'.priority t ∧
        s'.priority t = s'.priority s.current := by
    intro t ht htn
    rcases heff.priority t with h | ⟨h, -⟩ | ⟨-, hlt, h, -⟩ | ⟨h, p, hp⟩
    · exact Or.inl h
    · exact absurd h ht
    · have h : s'.priority t = s.priority s.current := h
      exact Or.inr ⟨h ▸ hlt.le, h.trans hcur.symm⟩
    · exact absurd hp (htn h p)
  rcases hraise u hne (fun h => absurd h hnew) with hup' | ⟨-, hup'⟩
  · rcases hs u hu with hle | hidle | ⟨x, hx, hex⟩
    · exact Or.inl (by rw [hup', hcur]; exact hle)
    · exact Or.inr (Or.inl hidle)
    · have hx : x ∈ s.code s.current := hx
      rw [hcode] at hx
      rcases List.mem_cons.mp hx with rfl | hxr
      · rcases Strict.settle hd hu hex hi (fun k h => hup ⟨k, h⟩) hn with h | h
        · exact Or.inl h
        · exact Or.inr (Or.inr ⟨.yield, h, trivial⟩)
      · refine Or.inr (Or.inr ⟨x, ?_, hex.mono hup'.le (fun t ht hxt => ?_)
          (fun k hk w hw => ⟨?_, ?_⟩) heff.yieldOnReturn⟩)
        · rw [hcode']
          exact List.mem_append_right _ hxr
        · refine (hraise t ht ?_).elim (fun h => h.ge) fun h => h.1
          rintro rfl p rfl
          rcases hxt with rfl | ⟨k, hk⟩
          · -- `thread_create` is not called between `sema_up` and its comparison
            have hg := hm.guarded s.current
            rw [hcode] at hg
            simp only [guarded, Bool.and_eq_true, Instr.keepsLevel] at hg
            simp [off_of_mem hg.1 hxr rfl] at hg
          · have hb := ((hwf.queues.waiters _ _).mp hk).1
            rw [show s.queues.status s.threadCnt = .dying from (hwf.queues.fresh _ le_rfl).1] at hb
            cases hb
        · rintro rfl
          exact hwf.not_waiting _ hw
        · refine heff.waiters_lock (hwf.queues.belongs s.current i ?_) (fun h => hup ⟨k, h⟩) hw
          show i ∈ s.code s.current
          simp [hcode]
  · exact Or.inl hup'.le

/-- A thread that becomes ready is compared with the current one, or is
    tolerated. -/
theorem Strict.new (hcmp : ∀ t, compares (s.code t))
    (hh : Handled s) (hok : preemptive s .run) (hcode : s.code s.current = i :: rest)
    (hfresh : s.current ≠ s.threadCnt) (hu : Readied (s.pop rest) s' u i)
    (hwait : ∀ m w, w ∈ s.waiters m → w ≠ s.current) (hn : exec (s.pop rest) i = some s') :
    s'.priority u ≤ s'.priority s.current ∨ Excused s'.sync s.current u := by
  have heff := exec_effect hn
  obtain ⟨l, -, hcode'⟩ := heff.pushes hfresh
  have hmem : ∀ x ∈ rest, x ∈ s'.sync.code s.current := by
    intro x hx
    rw [hcode']
    exact List.mem_append_right _ hx
  -- a tolerated thread, made ready by an instruction that changes no priority
  have htol : i.keepsLevel = true → s'.priority = s.priority → i ≠ .intrReturn → Tolerated s u →
      s'.priority u ≤ s'.priority s.current ∨ Excused s'.sync s.current u := by
    rintro hk hprio hne (h | h | ⟨hi, hy⟩)
    · exact Or.inl (by rw [hprio]; exact h)
    · exact Or.inr (Or.inl h)
    · have hhandling := hh hi
      rw [hcode] at hhandling
      simp only [handling, hne, decide_false, Bool.false_or, Bool.and_eq_true] at hhandling
      exact Or.inr (Or.inr ⟨.intrReturn, hmem _ (handling_mem hhandling.2), heff.yieldOnReturn hy⟩)
  simp only [preemptive, hcode] at hok
  cases hu with
  | create =>
    have hcmp := hcmp s.current
    rw [hcode] at hcmp
    exact Or.inr (Or.inr ⟨.createTest u, hmem _ (hcmp.2.1 u rfl), rfl⟩)
  | unblock => exact htol rfl (heff.priority_eq rfl) nofun hok
  | sleeper h hle => exact htol rfl (heff.priority_eq rfl) nofun (hok u h hle)
  | handler m h => exact htol rfl (heff.priority_eq rfl) nofun (hok u h)
  | up m h hw =>
    refine Or.inr (Or.inr ⟨.upTest u, List.mem_of_mem_head? h, hwait m u hw, le_rfl⟩)

theorem Strict.next (hwf : Wf s) (hm : Masked s)
    (hd : Descending s.priority s.readyList) (hcmp : ∀ t, compares (s.code t)) (hh : Handled s)
    (hs : Strict s) (hok : preemptive s a) (hn : next s a = some s') : Strict s' := by
  rcases next_cases hn with ⟨l, b, c, d, harr, hc, hr, hs'⟩ | ⟨i, rest, rfl, hcode, hn⟩
  · intro u hu
    rw [hc]
    rcases hs u (hr ▸ hu) with hle | hidle | ⟨x, hx, hex⟩
    · rw [show s'.priority = s.priority from congrArg Sync.priority hs']
      exact Or.inl hle
    · exact Or.inr (Or.inl hidle)
    · -- an interrupt is not interrupted
      have hne : x ≠ .intrReturn := by
        rintro rfl
        have hoff := off_of_mem (hm.guarded s.current) hx rfl
        cases harr with
        | call op hnil => simp [hnil, Threads.off] at hoff
        | timer hi | device l hi => exact absurd (hm.off hi) (by simpa using hoff)
      rw [hs']
      refine Or.inr (Or.inr ⟨x, ?_, ?_⟩)
      · show x ∈ (s.push l).code s.current
        have hx : x ∈ s.code s.current := hx
        simp [State.push, hx]
      · cases x with
        | semaUp m => cases m <;> exact hex
        | intrReturn => exact absurd rfl hne
        | _ => exact hex
  · have hready := exec_ready (s := s.pop rest) hd
      (fun t ht hi => (hwf.queues.ready t).mpr ⟨ht, hi⟩)
      (fun l t ht hi => hwf.holder l t ht (hwf.queues.idleThread t hi)) hwf.queues.running hn
    rcases hready with htop | ⟨hi, hc, hold⟩
    · exact fun u hu => Or.inl (htop u hu)
    · intro u hu
      rw [show s'.current = s.current from hc]
      rcases hold u hu with hu | hu
      · exact hs.old hwf hm hd hcmp hok hcode hu hi hn
      · refine Strict.new hcmp hh hok hcode hwf.queues.current_ne_fresh hu ?_ hn
        rintro m w hw rfl
        exact hwf.not_waiting m hw

theorem compares_next (hwf : Wf s) (h : ∀ t, compares (s.code t))
    (hn : next s a = some s') (t : Tid) : compares (s'.code t) := by
  rcases next_cases hn with ⟨l, b, c, d, harr, -, -, hs'⟩ | ⟨i, rest, -, hcode, hn⟩
  · rw [show s'.code = (s.push l).code from congrArg Sync.code hs']
    by_cases ht : t = s.current
    · subst ht
      simp only [State.push, update_self]
      cases harr with
      | call op hnil =>
        rw [hnil]
        cases op <;> simp [Op.code, compares]
      | timer => exact compares_append (h _) (by simp)
      | device l =>
        refine compares_append (h _) fun x hx => ?_
        rcases List.mem_append.mp hx with hx | hx
        · obtain ⟨z, -, rfl⟩ := List.mem_map.mp hx
          cases z <;> simp [HandlerOp.instr]
        · rw [List.mem_singleton.mp hx]
          simp
    · simp only [State.push, update_of_ne ht]
      exact h t
  · exact (exec_effect hn).compares h hcode hwf.queues.current_ne_fresh t

/-- Everything strict scheduling rests on. -/
structure Scheduled (s : State) : Prop where
  wf : Wf s
  masked : Masked s
  descending : Descending s.priority s.readyList
  compares : ∀ t, compares (s.code t)
  handled : Handled s
  strict : Strict s

theorem Initial.scheduled (h : Initial s) : Scheduled s := by
  refine ⟨h.wf, h.masked, ?_, fun t => ?_, fun hi => ?_, fun u hu => ?_⟩
  · simp [h.readyList, Descending]
  · rw [h.code]
    simp only
    split
    · simp [Threads.compares]
    · split <;> simp [Threads.compares]
  · rw [h.intr.2] at hi
    cases hi
  · rw [h.readyList] at hu
    rw [List.mem_singleton.mp hu, h.current, h.priority.1, h.priority.2]
    exact Or.inl (by decide)

theorem Scheduled.next (h : Scheduled s) (hok : preemptive s a)
    (hn : next s a = some s') : Scheduled s' :=
  ⟨h.wf.next hn, h.masked.next h.wf hn,
    (h.wf.readyMove hn).descending h.descending h.wf.queues.readyNodup,
    compares_next h.wf h.compares hn, h.handled.next h.wf hn,
    h.strict.next h.wf h.masked h.descending h.compares h.handled hok hn⟩

/-- In a run in which handlers make only tolerated threads ready and locks are
    released with a priority that somebody stands for, a thread that executes
    code of its own has at least the priority of every ready thread. -/
theorem running_highest (h : machine.Reaches preemptive s) (hown : s.code s.current = []) :
    ∀ t ∈ s.readyList, s.priority t ≤ s.priority s.current := by
  have hs : Scheduled s := System.Reaches.invariant (I := Scheduled)
    (fun _ hs => Initial.scheduled hs) (fun _ _ _ hs hok hn => hs.next hok hn) h
  intro t ht
  rcases hs.strict t ht with hle | hidle | ⟨x, hx, -⟩
  · exact hle
  · exact absurd hidle (hs.wf.queues.idle_ne_nil hown)
  · have hx : x ∈ s.code s.current := hx
    rw [hown] at hx
    cases hx

/-- The initial thread runs ahead of a thread of priority 20 it has created. -/
theorem running_highest_created : ∃ s, machine.Reaches preemptive s ∧ s.code s.current = [] ∧
    s.readyList = [2] ∧ s.priority 2 ≤ s.priority s.current := by
  obtain ⟨s, hs, hp⟩ := System.reaches_of_run (S := machine) preemptive boot_initial
    (l := bootLabels ++ .call (.threadCreate 20) :: List.replicate 7 .run)
    (p := fun s => s.code s.current == [] && s.readyList == [2]) (by decide)
  simp only [Bool.and_eq_true, beq_iff_eq] at hp
  exact ⟨s, hs, hp.1, hp.2, running_highest hs hp.1 2 (by simp [hp.2])⟩

/-- A timer interrupt wakes a thread of priority 40, and the initial thread goes
    on with its own code at priority 31. -/
theorem running_not_highest : ∃ s, machine.Reachable s ∧ s.code s.current = [] ∧ s.intr = true ∧
    s.inIntr = false ∧ ∃ t ∈ s.readyList, s.priority s.current < s.priority t := by
  obtain ⟨s, hs, hp⟩ := System.reachable_of_run (S := machine) boot_initial
    (l := bootLabels ++ .call (.threadCreate 40) :: List.replicate 9 .run ++
      .call (.timerSleep 1) :: List.replicate 2 .run ++ .timer :: List.replicate 4 .run)
    (p := fun s => s.code s.current == [] && s.intr && !s.inIntr && s.readyList == [2] &&
      s.priority s.current == 31 && s.priority 2 == 40) (by decide)
  simp only [Bool.and_eq_true, beq_iff_eq, Bool.not_eq_true'] at hp
  obtain ⟨⟨⟨⟨⟨hc, hi⟩, hin⟩, hr⟩, hcur⟩, h2⟩ := hp
  exact ⟨s, hs, hc, hi, hin, 2, by simp [hr], by rw [hcur, h2]; decide⟩

end Pintos.Threads
