/-
  Pintos.Threads.Semaphores

  No wake-up is lost.  `sema_up` raises the value and unblocks a waiter, which
  tries again when it runs; another thread can come first and take the value,
  and the waiter waits once more.  While threads wait, the value is at most the
  number of threads that have been unblocked and have not yet tried again.
-/

import Pintos.Threads.Masking

namespace Pintos.Threads

open Pintos.Base Function

variable {s s' : State} {i : Instr} {rest : List Instr} {y : Sync} {m : SemaId}

/-- What an instruction does to a semaphore. -/
inductive SemaMove (s : State) (i : Instr) (y : Sync) (m : SemaId) : Prop
  | zero (hvalue : y.value m = 0)
  | unwaited (hnil : y.waiters m = [])
  | stay (hi : i.retries ≠ some m) (hwaiters : y.waiters m = s.waiters m)
    (hvalue : y.value m = s.value m)
  | take (hwaiters : y.waiters m = s.waiters m) (hvalue : y.value m = s.value m - 1)
  | up (t : Tid) (hi : i.retries ≠ some m) (ht : t ∈ s.waiters m)
    (hwaiters : y.waiters m = (s.waiters m).erase t)
    (hvalue : y.value m = (s.value m + 1) % 2 ^ 32)

theorem Quiet.retries {l : List Instr} {b : Option Bool} (h : Quiet s i l b) : i.retries = none := by
  cases h <;> rfl

theorem Effect.semaMove (h : Effect (s.pop rest) i y) (m : SemaId) : SemaMove s i y m := by
  -- the value of another semaphore stays
  have hother : ∀ m' v, m ≠ m' → update s.value m' v m = s.value m :=
    fun m' v hm => update_of_ne hm ..
  have hotherList : ∀ m' v, m ≠ m' → update s.waiters m' v m = s.waiters m :=
    fun m' v hm => update_of_ne hm ..
  cases h with
  | quiet h => exact .stay (by simp [h.retries]) rfl rfl
  | wait m' hi h =>
    by_cases hm : m = m'
    · subst hm
      exact .zero h
    · exact .stay (by rcases hi with rfl | rfl <;> simp [Instr.retries, Ne.symm hm])
        (hotherList _ _ hm) rfl
  | take m' hi h =>
    by_cases hm : m = m'
    · subst hm
      exact .take rfl (update_self ..)
    · exact .stay (by rcases hi with rfl | rfl <;> simp [Instr.retries, Ne.symm hm]) rfl
        (hother _ _ hm)
  | tryDown m' h =>
    by_cases hm : m = m'
    · subst hm
      exact .take rfl (update_self ..)
    · exact .stay (by simp [Instr.retries]) rfl (hother _ _ hm)
  | upNone m' hi h =>
    by_cases hm : m = m'
    · subst hm
      exact .unwaited h
    · exact .stay (by rcases hi with rfl | rfl <;> simp [Instr.retries]) rfl (hother _ _ hm)
  | up m' t l hi ht =>
    have hretry : i.retries = none := by rcases hi with ⟨rfl, -⟩ | ⟨rfl, -⟩ <;> rfl
    by_cases hm : m = m'
    · subst hm
      exact .up t (by simp [hretry]) ht (update_self ..) (update_self ..)
    · exact .stay (by simp [hretry]) (hotherList _ _ hm) (hother _ _ hm)
  | lockWait l hi h =>
    by_cases hm : m = .lock l
    · subst hm
      exact .zero h
    · exact .stay (by rcases hi with rfl | rfl <;> simp [Instr.retries, Ne.symm hm])
        (hotherList _ _ hm) rfl
  | lockTake l hi h =>
    by_cases hm : m = .lock l
    · subst hm
      exact .take rfl (update_self ..)
    · exact .stay (by rcases hi with rfl | rfl <;> simp [Instr.retries, Ne.symm hm]) rfl
        (hother _ _ hm)
  | tryAcquire l hne h =>
    by_cases hm : m = .lock l
    · subst hm
      exact .take rfl (update_self ..)
    · exact .stay (by simp [Instr.retries]) rfl (hother _ _ hm)
  | condPush c l =>
    by_cases hm : m = .waiter s.current
    · subst hm
      exact .zero (update_self ..)
    · exact .stay (by simp [Instr.retries]) (hotherList _ _ hm) (hother _ _ hm)
  | _ => exact .stay (by simp [Instr.retries]) rfl rfl

/-! ## Threads that have been unblocked -/

/-- The threads that `sema_up` has unblocked and that have not yet tried again. -/
abbrev Woken := SemaId → Finset Tid

/-- Records the threads a step takes off the waiters of a semaphore, until they
    try again. -/
def trackWoken (s s' : State) (w : Woken) : Label → Woken
  | .run => fun m =>
    (if s.queues.retries s.current = some m then (w m).erase s.current else w m) ∪
      ((s.waiters m).toFinset \ (s'.waiters m).toFinset)
  | _ => w

/-- The machine with the record of unblocked threads. -/
def wakeTraced : System (State × Woken) Label where
  start p := Initial p.1 ∧ ∀ m, p.2 m = ∅
  next p a := (next p.1 a).map fun s => (s, trackWoken p.1 s p.2 a)

structure WokenOk (s : State) (w : Woken) : Prop where
  count : ∀ m, s.waiters m ≠ [] → s.value m ≤ (w m).card
  woken : ∀ m t, t ∈ w m → s.queues.retries t = some m ∧ t ∉ s.waiters m

/-- Only the current thread begins to wait. -/
theorem Effect.mem_waiters {t : Tid} (h : Effect (s.pop rest) i y)
    (ht : t ∈ y.waiters m) : t ∈ s.waiters m ∨ t = s.current := by
  have hinsert : ∀ m', t ∈ update s.waiters m'
      ((s.waiters m').orderedInsert (threadCmp (s.pop rest)) s.current) m →
      t ∈ s.waiters m ∨ t = s.current := by
    intro m' h
    by_cases hm : m = m'
    · subst hm
      rw [update_self, List.mem_orderedInsert] at h
      exact h.symm
    · rw [update_of_ne hm] at h
      exact Or.inl h
  have hsub : ∀ m' v, (∀ u ∈ v, u ∈ s.waiters m') → t ∈ update s.waiters m' v m →
      t ∈ s.waiters m := by
    intro m' v hv h
    by_cases hm : m = m'
    · subst hm
      rw [update_self] at h
      exact hv t h
    · rwa [update_of_ne hm] at h
  cases h with
  | wait m' => exact hinsert m' ht
  | lockWait l => exact hinsert _ ht
  | up m' => exact Or.inl (hsub m' _ (fun _ hu => List.mem_of_mem_erase hu) ht)
  | condPush => exact Or.inl (hsub (.waiter s.current) [] (fun _ hu => by cases hu) ht)
  | _ => exact Or.inl ht

/-- Another thread that is to try again is still to try again. -/
theorem retries_other {t : Tid} (hwf : Wf s) (hn : exec (s.pop rest) i = some s')
    (ht : t ≠ s.current) (hr : s.queues.retries t = some m) : s'.queues.retries t = some m := by
  have hnew : t ≠ s.threadCnt := by
    rintro rfl
    have hnil : s.code s.threadCnt = [] := (hwf.queues.fresh _ le_rfl).2
    simp [Queues.retries, State.queues, hnil] at hr
  have hcode : s'.code t = s.code t :=
    ((exec_effect hn).code_other ht).resolve_right fun h => hnew h.1
  simpa only [Queues.retries, State.queues, hcode] using hr

theorem WokenOk.exec {w : Woken} (hwf : Wf s) (hw : WokenOk s w)
    (hcode : s.code s.current = i :: rest) (hn : exec (s.pop rest) i = some s') :
    WokenOk s' (trackWoken s s' w .run) := by
  have heff := exec_effect hn
  have hcur : s.queues.retries s.current = i.retries := by
    simp [Queues.retries, State.queues, hcode]
  refine ⟨fun m hne => ?_, fun m t ht => ?_⟩
  · simp only [trackWoken, hcur]
    cases heff.semaMove m with
    | zero hvalue => exact (show s'.value m = 0 from hvalue) ▸ Nat.zero_le _
    | unwaited hnil => exact absurd hnil hne
    | stay hi hwaiters hvalue =>
      have hwaiters : s'.waiters m = s.waiters m := hwaiters
      have hvalue : s'.value m = s.value m := hvalue
      rw [hvalue, hwaiters]
      rw [hwaiters] at hne
      simpa [hi] using hw.count m hne
    | take hwaiters hvalue =>
      have hwaiters : s'.waiters m = s.waiters m := hwaiters
      have hvalue : s'.value m = s.value m - 1 := hvalue
      rw [hwaiters] at hne ⊢
      have hcount := hw.count m hne
      have herase := Finset.pred_card_le_card_erase (s := w m) (a := s.current)
      rw [hvalue, Finset.sdiff_self, Finset.union_empty]
      split <;> omega
    | up t hi ht hwaiters hvalue =>
      have hwaiters : s'.waiters m = (s.waiters m).erase t := hwaiters
      have hvalue : s'.value m = (s.value m + 1) % 2 ^ 32 := hvalue
      have hcount := hw.count m (List.ne_nil_of_mem ht)
      -- the thread had not been unblocked before
      have hnot : t ∉ w m := fun hmem => (hw.woken m t hmem).2 ht
      have herase : t ∉ (s.waiters m).erase t := (hwf.queues.waitersNodup m).not_mem_erase
      have hsub : insert t (w m) ⊆
          w m ∪ ((s.waiters m).toFinset \ (s'.waiters m).toFinset) := by
        refine Finset.insert_subset ?_ Finset.subset_union_left
        simp [hwaiters, ht, herase]
      have hcard := Finset.card_le_card hsub
      rw [Finset.card_insert_of_notMem hnot] at hcard
      rw [if_neg hi, hvalue]
      have := Nat.mod_le (s.value m + 1) (2 ^ 32)
      omega
  · simp only [trackWoken, hcur, Finset.mem_union, Finset.mem_sdiff, List.mem_toFinset] at ht
    rcases ht with ht | ⟨ht, hnot⟩
    · have htw : t ∈ w m := by
        split at ht
        · exact Finset.mem_of_mem_erase ht
        · exact ht
      obtain ⟨hr, hnot⟩ := hw.woken m t htw
      have htc : t ≠ s.current := by
        rintro rfl
        rw [hcur] at hr
        simp [hr] at ht
      refine ⟨retries_other hwf hn htc hr, fun hmem => ?_⟩
      rcases heff.mem_waiters hmem with hmem | hmem
      · exact hnot hmem
      · exact htc hmem
    · have htc : t ≠ s.current := by
        rintro rfl
        exact hwf.not_waiting m ht
      exact ⟨retries_other hwf hn htc ((hwf.queues.waiters m t).mp ht).2, hnot⟩

theorem retries_off {l : List Instr} (h : l.head?.bind Instr.retries = some m) :
    off l = true := by
  cases l with
  | nil => cases h
  | cons i l =>
    cases i <;> first | rfl | cases h

theorem WokenOk.next {a : Label} {w : Woken} (hwf : Wf s) (hm : Masked s) (hw : WokenOk s w)
    (hn : next s a = some s') : WokenOk s' (trackWoken s s' w a) := by
  rcases next_cases hn with ⟨l, b, c, d, harr, -, -, hs'⟩ | ⟨i, rest, rfl, hcode, hn⟩
  · have hwaiters : s'.waiters = s.waiters := congrArg Sync.waiters hs'
    have hvalue : s'.value = s.value := congrArg Sync.value hs'
    have htrack : trackWoken s s' w a = w := by cases harr <;> rfl
    rw [htrack]
    refine ⟨by simpa only [hwaiters, hvalue] using hw.count, fun m t ht => ?_⟩
    obtain ⟨hr, hnot⟩ := hw.woken m t ht
    refine ⟨?_, hwaiters ▸ hnot⟩
    have htc : t ≠ s.current := by
      rintro rfl
      have hoff : off (s.code s.current) = true := retries_off hr
      cases harr with
      | call op hnil => simp [Queues.retries, State.queues, hnil] at hr
      | timer hi | device l hi => exact absurd (hm.off hi) (by simpa using hoff)
    have hcode : s'.code t = s.code t :=
      (congrFun (congrArg Sync.code hs') t).trans (update_of_ne htc ..)
    simpa only [Queues.retries, State.queues, hcode] using hr
  · exact hw.exec hwf hcode hn

theorem wokenOk_of_reachable {p : State × Woken} (h : wakeTraced.Reachable p) :
    Wf p.1 ∧ Masked p.1 ∧ WokenOk p.1 p.2 := by
  refine System.Reachable.invariant (I := fun p => Wf p.1 ∧ Masked p.1 ∧ WokenOk p.1 p.2)
    (fun p hp => ?_) (fun p a p' hp hn => ?_) h
  · obtain ⟨hi, hw⟩ := hp
    exact ⟨hi.wf, hi.masked, by simp [hi.waiters], by simp [hw]⟩
  · obtain ⟨hwf, hm, hw⟩ := hp
    obtain ⟨s', hstep, rfl⟩ := Option.map_eq_some_iff.mp hn
    exact ⟨hwf.next hstep, hm.next hwf hstep, hw.next hwf hm hstep⟩

/-- `sema_up` on a semaphore that is waited for does not fail. -/
theorem semaWake_some (hblocked : ∀ t ∈ s.waiters m, s.status t = .blocked)
    (hne : s.waiters m ≠ []) : ∃ s' t, semaWake s m = some (s', some t) := by
  cases hmax : Base.listMax (threadPriorityLess s) (s.waiters m) with
  | none => exact absurd (Base.listMax_eq_none hmax) hne
  | some t =>
    have hb := hblocked t (Base.listMax_mem (threadPriorityLess_iff s) hmax)
    have hmax' : Base.listMax (threadPriorityLess (s.setValue m ((s.value m + 1) % 2 ^ 32)))
        ((s.setValue m ((s.value m + 1) % 2 ^ 32)).waiters m) = some t := hmax
    rw [semaWake, hmax']
    simp [State.setValue, State.setWaiters, threadUnblock, hb]

theorem semaUp_wakes (hwf : Wf s)
    (hcode : s.code s.current = .semaUp m :: rest ∨ s.code s.current = .intrSemaUp m :: rest)
    (hne : s.waiters m ≠ []) :
    ∃ s' t, next s .run = some s' ∧ t ∈ s.waiters m ∧
      (∀ u ∈ s.waiters m, s.priority u ≤ s.priority t) ∧ s'.waiters m = (s.waiters m).erase t ∧
      s.status t = .blocked ∧ s'.status = update s.status t .ready := by
  obtain ⟨s₁, t, hw⟩ := semaWake_some (s := s.pop rest) (m := m)
    (fun t ht => ((hwf.queues.waiters m t).mp ht).1) hne
  rcases semaWake_cases hw with ⟨hnil, -⟩ | ⟨u, hu, hmax, heq, hb, rfl⟩
  · exact absurd hnil hne
  · cases heq
    rcases hcode with hcode | hcode
    · have hnext : next s .run = exec (s.pop rest) (.semaUp m) := by
        simp only [next, hcode]
        rfl
      simp only [exec, hw, Option.map_some] at hnext
      exact ⟨_, t, hnext, hu, hmax, update_self .., hb, rfl⟩
    · have hnext : next s .run = exec (s.pop rest) (.intrSemaUp m) := by
        simp only [next, hcode]
        rfl
      simp only [exec, hw, Option.map_some] at hnext
      exact ⟨_, t, hnext, hu, hmax, update_self .., hb, rfl⟩

/-- While threads wait for a semaphore, its value is at most the number of
    threads that `sema_up` has unblocked and that have not yet tried again; and
    `sema_up` unblocks one waiter, of maximal priority at that moment. -/
theorem sema_wakes {w : Woken} (h : wakeTraced.Reachable (s, w)) :
    (∀ m, s.waiters m ≠ [] → s.value m ≤ (w m).card) ∧
    ∀ m rest, s.code s.current = .semaUp m :: rest ∨ s.code s.current = .intrSemaUp m :: rest →
      s.waiters m ≠ [] → ∃ s' t, machine.next s .run = some s' ∧ t ∈ s.waiters m ∧
        (∀ u ∈ s.waiters m, s.priority u ≤ s.priority t) ∧
        s'.waiters m = (s.waiters m).erase t ∧ s.status t = .blocked ∧
        s'.status = update s.status t .ready := by
  obtain ⟨hwf, -, hw⟩ := wokenOk_of_reachable h
  exact ⟨hw.count, fun m rest hcode hne => semaUp_wakes hwf hcode hne⟩

/-- Two threads wait for a semaphore; the initial thread raises it, and the one of
    the higher priority is unblocked and has not run. -/
theorem sema_wakes_waiting : ∃ s w, wakeTraced.Reachable (s, w) ∧ s.waiters (.plain 0) = [2] ∧
    w (.plain 0) = {3} ∧ s.value (.plain 0) ≤ (w (.plain 0)).card := by
  obtain ⟨⟨s, w⟩, hs, hp⟩ := System.reachable_of_run (S := wakeTraced) (s := (boot, fun _ => ∅))
    ⟨boot_initial, fun _ => rfl⟩
    (l := bootLabels ++ .call (.threadCreate 40) :: List.replicate 9 .run ++
      .call (.semaDown 0) :: List.replicate 2 .run ++
      .call (.threadCreate 45) :: List.replicate 9 .run ++
      .call (.semaDown 0) :: List.replicate 2 .run ++ [.call (.semaUp 0), .run])
    (p := fun p => p.1.waiters (.plain 0) == [2] && decide (p.2 (.plain 0) = {3})) (by decide)
  simp only [Bool.and_eq_true, beq_iff_eq, decide_eq_true_eq] at hp
  exact ⟨s, w, hs, hp.1, hp.2, (sema_wakes hs).1 _ (by simp [hp.1])⟩

end Pintos.Threads
