/-
  Pintos.Threads.Donors

  The donor lists.  A thread is on the donor list of the holder of the lock it
  waits for, from `lock_acquire` to the `lock_release` of the holder.  The
  critical sections are recorded along the run, so that mutual exclusion is a
  statement about acquires and releases and not about the fields of the lock.
-/

import Pintos.Threads.Locks

namespace Pintos.Threads

open Pintos.Base Function

variable {s s' : State} {i : Instr} {rest : List Instr} {y : Sync} {l : LockId} {w h : Tid}
  {a : Label}

/-- The code of a thread in `lock_acquire` that has not yet tried the
    semaphore. -/
inductive Donating (l : LockId) : List Instr → Prop
  | down (rest : List Instr) : Donating l (.lockDown l :: rest)
  | propagate (k : Option LockId) (depth : Nat) (rest : List Instr) :
    Donating l (.propagate k depth :: .lockDown l :: rest)

/-- Thread `w` waits for the lock in `lock_acquire`, or is about to. -/
def Acquiring (s : State) (w : Tid) (l : LockId) : Prop :=
  w ∈ s.waiters (.lock l) ∨ w = s.current ∧ Donating l (s.code w)

/-- A donor is on the list of the holder of the lock it waits for. -/
structure DonorsOk (s : State) : Prop where
  nodup : ∀ h, (s.donorThreads h).Nodup
  donor : ∀ w h, w ∈ s.donorThreads h →
    ∃ l, s.blockingLock w = some l ∧ s.holder l = some h ∧ Acquiring s w l

theorem Donating.off {code : List Instr} (h : Donating l code) :
    Threads.off code = true := by
  cases h <;> rfl

/-- Only the release of the lock takes a thread off its waiters. -/
theorem Effect.waiters_lock (hbelongs : i.belongs s.idleThread s.current)
    (hne : i ≠ .semaUp (.lock l)) (hw : w ∈ s.waiters (.lock l))
    (h : Effect (s.pop rest) i y) : w ∈ y.waiters (.lock l) := by
  have hinsert : ∀ m, w ∈ update s.waiters m
      ((s.waiters m).orderedInsert (threadCmp (s.pop rest)) s.current) (.lock l) := by
    intro m
    by_cases hm : SemaId.lock l = m
    · subst hm
      rw [update_self]
      exact (List.mem_orderedInsert _).mpr (Or.inr hw)
    · rwa [update_of_ne hm]
  have hother : ∀ m v, SemaId.lock l ≠ m → w ∈ update s.waiters m v (.lock l) := by
    intro m v hm
    rwa [update_of_ne hm]
  cases h with
  | wait m => exact hinsert m
  | lockWait l' => exact hinsert _
  | up m t k hi =>
    have hm : SemaId.lock l ≠ m := by
      rintro rfl
      rcases hi with ⟨rfl, -⟩ | ⟨rfl, -⟩
      · exact hne rfl
      · obtain ⟨n, hn⟩ := hbelongs
        cases hn
    exact hother m _ hm
  | condPush c k => exact hother (.waiter s.current) [] (by simp)
  | _ => exact hw

theorem Effect.propagate_code {k : Option LockId} {depth : Nat}
    (h : Effect (s.pop rest) (.propagate k depth) y) :
    y.code s.current = rest ∨ ∃ k' depth', y.code s.current = .propagate k' depth' :: rest := by
  cases h with
  | quiet h =>
    cases h
    exact Or.inl (State.pop_push_current s rest [])
  | propagate l depth h => exact Or.inr ⟨_, _, State.pop_push_current s rest [_]⟩
  | wait _ hi | take _ hi | upNone _ hi | lockWait _ hi | lockTake _ hi =>
    rcases hi with hi | hi <;> cases hi
  | up _ _ _ hi => rcases hi with ⟨hi, -⟩ | ⟨hi, -⟩ <;> cases hi

theorem LocksOk.value_zero (hok : LocksOk s.sync)
    (hh : s.holder l = some h) : s.value (.lock l) = 0 := by
  refine hok.taken l h (Nat.lt_of_lt_of_le ?_ (holds_le_token l h))
  simp [hh, holds_some]

/-- The holder is the only thread inside the lock. -/
theorem LocksOk.not_token (hok : LocksOk s.sync)
    (hh : s.holder l = some h) (hcode : s.code s.current = i :: rest) : i.tokens l = 0 := by
  refine Nat.eq_zero_of_not_pos fun hpos => ?_
  have hi : i = .trySet l ∨ i = .semaUp (.lock l) := by
    by_contra hi
    simp [Instr.tokens, hi] at hpos
  have hcur : holds (some h) s.current + 1 ≤ s.sync.token l s.current := by
    rcases hi with rfl | rfl <;>
    · simp only [Sync.token, State.sync, hcode, hh, List.count_cons_self]
      omega
  have hhold : 0 < s.sync.token l h := by
    refine Nat.lt_of_lt_of_le ?_ (holds_le_token l h)
    simp [hh, holds_some]
  have heq := hok.unique l h s.current hhold (by omega)
  have honce := hok.once l s.current
  simp [heq, holds_some] at hcur
  omega

/-- A thread that waits for a held lock goes on waiting. -/
theorem Acquiring.exec (hwf : Wf s) (hok : LocksOk s.sync)
    (hh : s.holder l = some h) (hcode : s.code s.current = i :: rest)
    (hn : exec (s.pop rest) i = some s') (hw : Acquiring s w l) : Acquiring s' w l := by
  have htok := hok.not_token hh hcode
  have hne : i ≠ .semaUp (.lock l) := by
    rintro rfl
    simp [Instr.tokens] at htok
  have hbelongs := hwf.queues.belongs s.current i (by
    show i ∈ s.code s.current
    simp [hcode])
  rcases hw with hw | ⟨rfl, hw⟩
  · exact Or.inl ((exec_effect hn).waiters_lock hbelongs hne hw)
  · rw [hcode] at hw
    cases hw with
    | down =>
      -- the semaphore is 0, so that the thread waits
      have hzero := hok.value_zero hh
      simp only [Threads.exec] at hn
      rcases semaTake_cases hn with ⟨-, hn⟩ | ⟨hne, -⟩
      · refine Or.inl ?_
        rw [show s'.waiters = _ from congrArg Sync.waiters (threadBlock_sync hn)]
        show _ ∈ update s.waiters (.lock l) _ (.lock l)
        rw [update_self]
        exact (List.mem_orderedInsert _).mpr (Or.inl rfl)
      · exact absurd hzero hne
    | propagate k depth rest' =>
      have hc : s'.current = s.current :=
        (exec_current hn).resolve_right fun h => by cases h.1
      refine Or.inr ⟨hc.symm, ?_⟩
      rcases (exec_effect hn).propagate_code with hs' | ⟨k', depth', hs'⟩
      · exact (show s'.code s.current = _ from hs') ▸ .down rest'
      · exact (show s'.code s.current = _ from hs') ▸ .propagate k' depth' rest'

/-- A thread that holds nothing back is not a donor. -/
theorem DonorsOk.not_donor (hwf : Wf s) (hd : DonorsOk s) (hcode : s.code s.current = i :: rest)
    (hi : ∀ l, ¬ Donating l (i :: rest)) (h : Tid) : s.current ∉ s.donorThreads h := by
  intro hmem
  obtain ⟨l, -, -, hw | ⟨-, hw⟩⟩ := hd.donor _ h hmem
  · exact hwf.not_waiting _ hw
  · exact hi l (hcode ▸ hw)

theorem DonorsOk.ne_fresh (hwf : Wf s) (hd : DonorsOk s)
    (hw : w ∈ s.donorThreads h) : w ≠ s.threadCnt := by
  rintro rfl
  obtain ⟨l, -, -, hw | ⟨hw, -⟩⟩ := hd.donor _ h hw
  · have hb := ((hwf.queues.waiters _ _).mp hw).1
    rw [show s.queues.status s.threadCnt = .dying from (hwf.queues.fresh _ le_rfl).1] at hb
    cases hb
  · exact hwf.queues.current_ne_fresh hw.symm

theorem DonorsOk.exec (hwf : Wf s) (hok : LocksOk s.sync) (hd : DonorsOk s)
    (hcode : s.code s.current = i :: rest) (hn : exec (s.pop rest) i = some s') : DonorsOk s' := by
  have hkeep : ∀ w h, w ∈ s.donorThreads h → ∃ l, s.blockingLock w = some l ∧
      s.holder l = some h ∧ Acquiring s' w l := by
    intro w h hw
    obtain ⟨l, hb, hh, ha⟩ := hd.donor w h hw
    exact ⟨l, hb, hh, ha.exec hwf hok hh hcode hn⟩
  have heff := exec_effect hn
  suffices hsuff : (∀ h, (s'.sync.donorThreads h).Nodup) ∧ ∀ w h, w ∈ s'.sync.donorThreads h →
      ∃ l, s'.sync.blockingLock w = some l ∧ s'.sync.holder l = some h ∧ Acquiring s' w l from
    ⟨hsuff.1, hsuff.2⟩
  generalize hy : s'.sync = y at heff ⊢
  cases heff with
  | create p =>
    refine ⟨fun h => ?_, fun w h hw => ?_⟩
    · show (update s.donorThreads s.threadCnt [] h).Nodup
      by_cases hh : h = s.threadCnt
      · simp [hh]
      · rw [update_of_ne hh]
        exact hd.nodup h
    · have hw : w ∈ update s.donorThreads s.threadCnt [] h := hw
      by_cases hh : h = s.threadCnt
      · simp [hh] at hw
      · rw [update_of_ne hh] at hw
        obtain ⟨l, hb, hl⟩ := hkeep w h hw
        exact ⟨l, (update_of_ne (hd.ne_fresh hwf hw) ..).trans hb, hl⟩
  | donate l h hholder hne =>
    have hnot := hd.not_donor hwf hcode (fun _ h => by cases h)
    refine ⟨fun h' => ?_, fun w h' hw => ?_⟩
    · show (update s.donorThreads h _ h').Nodup
      by_cases hh : h' = h
      · subst hh
        rw [update_self, (List.perm_orderedInsert ..).nodup_iff]
        exact List.nodup_cons.mpr ⟨hnot h', hd.nodup h'⟩
      · rw [update_of_ne hh]
        exact hd.nodup h'
    · have hw : w ∈ update s.donorThreads h
          ((s.donorThreads h).orderedInsert (threadCmp (s.pop rest)) s.current) h' := hw
      have hcase : w = s.current ∧ h' = h ∨ w ∈ s.donorThreads h' := by
        by_cases hh : h' = h
        · subst hh
          rw [update_self, List.mem_orderedInsert] at hw
          exact hw.imp_left fun hw => ⟨hw, rfl⟩
        · rw [update_of_ne hh] at hw
          exact Or.inr hw
      rcases hcase with ⟨rfl, rfl⟩ | hw
      · refine ⟨l, update_self .., hholder, Or.inr ⟨?_, ?_⟩⟩
        · exact ((exec_current hn).resolve_right fun h => by cases h.1).symm
        · have hcode' : s'.code s.current = .propagate (some l) 0 :: .lockDown l :: rest := by
            rw [show s'.code = _ from congrArg Sync.code hy]
            simp [State.sync, State.push, Threads.donate, State.pop]
          exact hcode' ▸ .propagate ..
      · obtain ⟨l', hb, hl'⟩ := hkeep w h' hw
        have hwc : w ≠ s.current := fun heq => hnot h' (heq ▸ hw)
        exact ⟨l', (update_of_ne hwc ..).trans hb, hl'⟩
  | lockTake l hi h =>
    refine ⟨hd.nodup, fun w h' hw => ?_⟩
    obtain ⟨l', hb, hh, ha⟩ := hkeep w h' hw
    have hl' : l' ≠ l := by
      rintro rfl
      exact h (hok.value_zero hh)
    have hwc : w ≠ s.current := by
      rintro rfl
      obtain ⟨l'', hb', -, hw | ⟨-, hw⟩⟩ := hd.donor _ h' hw
      · exact hwf.not_waiting _ hw
      · rw [hb] at hb'
        cases hb'
        rw [hcode] at hw
        rcases hi with rfl | rfl
        · cases hw
          exact hl' rfl
        · cases hw
    exact ⟨l', (update_of_ne hwc ..).trans hb, (update_of_ne hl' ..).trans hh, ha⟩
  | trySet l =>
    refine ⟨hd.nodup, fun w h' hw => ?_⟩
    obtain ⟨l', hb, hh, ha⟩ := hkeep w h' hw
    have hl' : l' ≠ l := by
      rintro rfl
      have := hok.not_token hh hcode
      simp [Instr.tokens] at this
    exact ⟨l', hb, (update_of_ne hl' ..).trans hh, ha⟩
  | release l hholder =>
    have hfilter : ∀ w h, w ∈ (donorsKept (s.pop rest) l).donorThreads h →
        w ∈ s.donorThreads h ∧ (h = s.current → s.blockingLock w ≠ some l) := by
      intro w h hw
      by_cases hh : h = s.current
      · subst hh
        simp only [donorsKept, State.pop, update_self, List.mem_filter] at hw
        exact ⟨hw.1, fun _ => of_decide_eq_true hw.2⟩
      · simp only [donorsKept, State.pop, update_of_ne hh] at hw
        exact ⟨hw, fun heq => absurd heq hh⟩
    refine ⟨fun h => ?_, fun w h hw => ?_⟩
    · show ((donorsKept (s.pop rest) l).donorThreads h).Nodup
      by_cases hh : h = s.current
      · subst hh
        simp only [donorsKept, State.pop, update_self]
        exact (hd.nodup _).filter _
      · simp only [donorsKept, State.pop, update_of_ne hh]
        exact hd.nodup h
    · obtain ⟨hw, hne⟩ := hfilter w h hw
      obtain ⟨l', hb, hh, ha⟩ := hkeep w h hw
      have hl' : l' ≠ l := by
        rintro rfl
        have hcur : h = s.current := Option.some.inj (hh.symm.trans hholder)
        exact hne hcur hb
      exact ⟨l', hb, (update_of_ne hl' ..).trans hh, ha⟩
  | _ => exact ⟨hd.nodup, hkeep⟩

theorem DonorsOk.next (hwf : Wf s) (hm : Masked s) (hok : LocksOk s.sync)
    (hd : DonorsOk s) (hn : next s a = some s') : DonorsOk s' := by
  rcases next_cases hn with ⟨l, b, c, d, harr, hc, -, hs'⟩ | ⟨i, rest, -, hcode, hn⟩
  · refine ⟨?_, ?_⟩
    · rw [show s'.donorThreads = s.donorThreads from congrArg Sync.donorThreads hs']
      exact hd.nodup
    · rw [show s'.donorThreads = s.donorThreads from congrArg Sync.donorThreads hs',
        show s'.blockingLock = s.blockingLock from congrArg Sync.blockingLock hs',
        show s'.holder = s.holder from congrArg Sync.holder hs']
      intro w h hw
      obtain ⟨l', hb, hh, ha⟩ := hd.donor w h hw
      refine ⟨l', hb, hh, ?_⟩
      rcases ha with ha | ⟨rfl, ha⟩
      · refine Or.inl ?_
        rwa [show s'.waiters = s.waiters from congrArg Sync.waiters hs']
      · -- no call and no interrupt comes between the donation and the semaphore
        exfalso
        cases harr with
        | call op hnil => rw [hnil] at ha; cases ha
        | timer hi | device l hi =>
          have := hm.off hi
          rw [ha.off] at this
          cases this
  · exact hd.exec hwf hok hcode hn

theorem Initial.donorsOk (h : Initial s) : DonorsOk s :=
  ⟨by simp [h.donorThreads], by simp [h.donorThreads]⟩

/-! ## Critical sections -/

/-- How often a thread has got a lock and not yet released it. -/
abbrev Inside := LockId → Tid → Nat

/-- Records acquires and releases: `lock_acquire` and `lock_try_acquire` succeed
    when they find the semaphore above 0, and `lock_release` ends with
    `sema_up`. -/
def track (s : State) (x : Inside) : Label → Inside
  | .run =>
    match s.code s.current with
    | [] => x
    | i :: _ => fun l t =>
      if t = s.current then
        if i.enters l ∧ s.value (.lock l) ≠ 0 then x l t + 1
        else if i = .semaUp (.lock l) then x l t - 1
        else x l t
      else x l t
  | _ => x

/-- The machine with the record of critical sections. -/
def traced : System (State × Inside) Label where
  start p := Initial p.1 ∧ ∀ l t, p.2 l t = 0
  next p a := (next p.1 a).map fun s => (s, track p.1 p.2 a)

/-- The record agrees with the tokens. -/
structure Traced (p : State × Inside) : Prop where
  wf : Wf p.1
  masked : Masked p.1
  locks : LocksOk p.1.sync
  donors : DonorsOk p.1
  inside : ∀ l t, p.2 l t = p.1.sync.token l t

theorem LockMove.track {x : Inside} (hx : ∀ t, x l t = s.sync.token l t)
    (hcode : s.code s.current = i :: rest) (h : LockMove s.sync s.current i y l) (t : Tid) :
    Threads.track s x .run l t = y.token l t := by
  simp only [Threads.track, hcode]
  cases h with
  | stay henter hleave htoken hvalue =>
    have hne : ¬ (i.enters l ∧ s.value (.lock l) ≠ 0) := fun h => h.2 (henter h.1)
    simp only [hne, hleave, if_false, ite_self, htoken, hx]
  | enter hi hne htoken hvalue =>
    have hval : s.value (.lock l) ≠ 0 := hne
    simp only [hi, htoken, hx]
    split <;> simp [hval]
  | leave hi htoken hvalue =>
    subst hi
    have := htoken t
    simp only [Instr.enters, hx]
    split <;> simp_all
    omega

theorem Arrival.token {l : List Instr} {b c d : Bool} (h : Arrival s a l b c)
    (hs' : s'.sync = { (s.push l).sync with intr := b, inIntr := c, yieldOnReturn := d }) (k : LockId) (t : Tid) :
    s'.sync.token k t = s.sync.token k t := by
  rw [hs']
  simp only [Sync.token, State.sync, State.push]
  by_cases ht : t = s.current
  · subst ht
    simp [h.no_token]
  · simp [ht]

theorem Arrival.track {l : List Instr} {b c : Bool} (h : Arrival s a l b c)
    (x : Inside) : track s x a = x := by
  cases h <;> rfl

theorem Traced.next {p p' : State × Inside} (h : Traced p)
    (hn : traced.next p a = some p') : Traced p' := by
  obtain ⟨s, x⟩ := p
  obtain ⟨s', hstep, rfl⟩ := Option.map_eq_some_iff.mp hn
  have hn : Threads.next s a = some s' := hstep
  refine ⟨h.wf.next hn, h.masked.next h.wf hn, h.locks.next h.wf hn,
    h.donors.next h.wf h.masked h.locks hn, fun l t => ?_⟩
  rcases next_cases hn with ⟨k, b, c, d, harr, -, -, hs'⟩ | ⟨i, rest, rfl, hcode, hn⟩
  · rw [harr.token hs', show track s x a = x from harr.track x]
    exact h.inside l t
  · refine (Effect.lockMove hcode h.wf.queues.current_ne_fresh (h.wf.queues.fresh _ le_rfl).2
      (h.wf.queues.belongs _ i ?_) h.locks (exec_effect hn) l).track (h.inside l) hcode t
    show i ∈ s.code s.current
    simp [hcode]

theorem traced_of_reachable {p : State × Inside} (h : traced.Reachable p) : Traced p := by
  refine System.Reachable.invariant (I := Traced) (fun p hp => ?_) (fun _ _ _ hp hn => hp.next hn) h
  obtain ⟨hi, hx⟩ := hp
  refine ⟨hi.wf, hi.masked, hi.locksOk, hi.donorsOk, fun l t => ?_⟩
  rw [hx, hi.token_zero]

theorem Wf.lockRetry (hwf : Wf s) (hw : w ∈ s.waiters (.lock l)) :
    s.status w = .blocked ∧ (s.code w).head? = some (.lockRetry l) := by
  obtain ⟨hb, hr⟩ := (hwf.queues.waiters _ _).mp hw
  refine ⟨hb, ?_⟩
  obtain ⟨x, hx, hrx⟩ := Option.bind_eq_some_iff.mp hr
  have hbelongs := hwf.queues.belongs w x (List.mem_of_mem_head? hx)
  cases x <;> simp only [Instr.retries, reduceCtorEq, Option.some.injEq, SemaId.lock.injEq] at hrx
  · subst hrx
    cases hbelongs
  · subst hrx
    exact hx

/-- At most one thread is inside a lock, the holder is that thread or none, and
    the semaphore is 0 meanwhile; a donor is on one donor list, once, and waits
    in `lock_acquire` for a lock that the owner of the list holds. -/
theorem lock_exclusive {x : Inside} (h : traced.Reachable (s, x)) :
    (∀ l t u, 0 < x l t → 0 < x l u → t = u) ∧ (∀ l t, x l t ≤ 1) ∧
    (∀ l t, s.holder l = some t → 0 < x l t) ∧
    (∀ l, s.value (.lock l) ≤ 1) ∧ (∀ l t, 0 < x l t → s.value (.lock l) = 0) ∧
    ∀ w h, w ∈ s.donorThreads h →
      (s.donorThreads h).count w = 1 ∧ (∀ h', w ∈ s.donorThreads h' → h' = h) ∧
      ∃ l, s.blockingLock w = some l ∧ s.holder l = some h ∧
        (s.status w = .blocked ∧ (s.code w).head? = some (.lockRetry l) ∨
          w = s.current ∧ s.intr = false ∧ Donating l (s.code w)) := by
  have ht := traced_of_reachable h
  have hx : ∀ l t, x l t = s.sync.token l t := ht.inside
  simp only [hx]
  refine ⟨ht.locks.unique, ht.locks.once, fun l t hh => ?_, ht.locks.value, ht.locks.taken,
    fun w h hw => ?_⟩
  · refine Nat.lt_of_lt_of_le ?_ (holds_le_token l t)
    simp [hh, holds_some]
  · obtain ⟨l, hb, hh, ha⟩ := ht.donors.donor w h hw
    refine ⟨List.count_eq_one_of_mem (ht.donors.nodup h) hw, fun h' hw' => ?_, l, hb, hh, ?_⟩
    · obtain ⟨l', hb', hh', -⟩ := ht.donors.donor w h' hw'
      have hl : l' = l := Option.some.inj (hb'.symm.trans hb)
      exact Option.some.inj ((hl ▸ hh').symm.trans hh)
    · rcases ha with ha | ⟨rfl, ha⟩
      · exact Or.inl (ht.wf.lockRetry ha)
      · refine Or.inr ⟨rfl, ?_, ha⟩
        by_contra hi
        have := ht.masked.off (by simpa using hi)
        rw [ha.off] at this
        cases this

/-- A thread waits for a lock that the initial thread is inside. -/
theorem lock_exclusive_donor : ∃ s x, traced.Reachable (s, x) ∧ s.donorThreads 0 = [2] ∧
    x 1 0 = 1 ∧ ∀ t, 0 < x 1 t → t = 0 := by
  obtain ⟨⟨s, x⟩, hs, hp⟩ := System.reachable_of_run (S := traced) (s := (boot, fun _ _ => 0))
    ⟨boot_initial, fun _ _ => rfl⟩
    (l := bootLabels ++ .call (.lockAcquire 1) :: List.replicate 2 .run ++
      .call (.threadCreate 40) :: List.replicate 9 .run ++
      .call (.lockAcquire 1) :: List.replicate 4 .run)
    (p := fun p => p.1.donorThreads 0 == [2] && p.2 1 0 == 1 && p.1.current == 0) (by decide)
  simp only [Bool.and_eq_true, beq_iff_eq] at hp
  refine ⟨s, x, hs, hp.1.1, hp.1.2, fun t ht => ?_⟩
  exact (lock_exclusive hs).1 1 t 0 ht (by omega)

end Pintos.Threads
