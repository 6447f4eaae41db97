/-
  Pintos.Threads.ReadyQueue

  The ready list holds the ready threads, in the order of their priorities, also
  when a donation changes the priority of a thread that is on it.
-/

import Pintos.Base.PriorityList
import Pintos.Threads.Dispatch
import Pintos.Threads.QueueSteps

namespace Pintos.Threads

open Pintos.Base Function

variable {s s' : State} {i : Instr} {rest : List Instr}

/-! ## The threads are on their lists -/

/-- The threads are on the lists they belong to, and the idle thread holds no
    lock. -/
structure Wf (s : State) : Prop where
  queues : s.queues.Ok
  holder : ∀ l t, s.holder l = some t → t ≠ idleTid

theorem Wf.not_waiting (hwf : Wf s) (m : SemaId) : s.current ∉ s.waiters m := by
  intro hmem
  have hb := ((hwf.queues.waiters m _).mp hmem).1
  rw [show s.queues.status s.current = .running from hwf.queues.running] at hb
  cases hb

/-- A lock changes its holder to none, or to the thread that takes it. -/
theorem Effect.holder {y : Sync} (h : Effect s i y) {l : LockId} {t : Tid}
    (ht : y.holder l = some t) : s.holder l = some t ∨ t = s.current ∧ i.ofIdle = false := by
  have htaken : ∀ l', update s.holder l' (some s.current) l = some t →
      s.holder l = some t ∨ t = s.current := by
    intro l' h
    by_cases hl : l = l'
    · subst hl
      rw [update_self] at h
      exact Or.inr (Option.some.inj h).symm
    · rw [update_of_ne hl] at h
      exact Or.inl h
  cases h with
  | lockTake l' hi _ =>
    rcases hi with rfl | rfl <;> exact (htaken l' ht).imp_right fun h => ⟨h, rfl⟩
  | trySet l' => exact (htaken l' ht).imp_right fun h => ⟨h, rfl⟩
  | release l' =>
    by_cases hl : l = l'
    · subst hl
      simp at ht
    · refine Or.inl ?_
      simpa [hl] using ht
  | _ => exact Or.inl ht

theorem Queues.Ok.idle_ne_nil (h : s.queues.Ok) (hcode : s.code s.current = []) :
    s.current ≠ idleTid := by
  intro hcur
  obtain ⟨-, x, hlast, -⟩ : IdleCode (s.code s.current) := hcur ▸ h.idleCode
  simp [hcode] at hlast

theorem Op.code_belongs (op : Op) (idle : Option Tid) (t : Tid) :
    ∀ x ∈ op.code t, x.belongs idle t := by
  cases op <;> simp [Op.code]

theorem Op.createUnblock_notMem (op : Op) (t u : Tid) : .createUnblock u ∉ op.code t := by
  cases op <;> simp [Op.code]

theorem Wf.interrupt {l : List Instr} (h : Wf s) (hcreate : ∀ t, .createUnblock t ∉ l)
    (hidle : ∀ x ∈ l, x.ofIdle = true) (hbelongs : ∀ x ∈ l, ∀ u t, x.belongs u t)
    (hn : interrupt s l = some s') : Wf s' := by
  simp only [Threads.interrupt] at hn
  split at hn
  · cases hn
    refine ⟨Queues.Ok.push (s := { s with intr := _, inIntr := _, yieldOnReturn := _ }) h.queues
      ?_ ?_ ?_, h.holder⟩
    · intro t ht
      simp [hcreate t] at ht
    · intro _ x hx
      rcases List.mem_append.mp hx with hx | hx
      · exact hidle x hx
      · rw [List.mem_singleton.mp hx]
        rfl
    · intro x hx
      rcases List.mem_append.mp hx with hx | hx
      · exact hbelongs x hx _ _
      · rw [List.mem_singleton.mp hx]
        trivial
  · cases hn

theorem Wf.next {a : Label} (h : Wf s) (hn : next s a = some s') : Wf s' := by
  cases a with
  | call op =>
    simp only [Threads.next] at hn
    split at hn
    · rename_i hcode
      cases hn
      have hcur := h.queues.idle_ne_nil hcode
      exact ⟨h.queues.push (op.createUnblock_notMem _) (fun hc => absurd hc hcur)
        (op.code_belongs _ _), h.holder⟩
    · cases hn
  | run =>
    simp only [Threads.next] at hn
    split at hn
    · cases hn
    · rename_i i rest hcode
      refine ⟨h.queues.exec h.holder hcode hn, fun l t ht => ?_⟩
      rcases (exec_effect hn).holder (l := l) ht with ht | ⟨rfl, hi⟩
      · exact h.holder l t ht
      · exact h.queues.not_idle hcode hi
  | timer =>
    exact h.interrupt (by simp) (by simp [Instr.ofIdle]) (by simp) hn
  | device l =>
    refine h.interrupt ?_ ?_ ?_ hn
    · intro t ht
      obtain ⟨x, -, hx⟩ := List.mem_map.mp ht
      cases x <;> cases hx
    · intro y hy
      obtain ⟨x, -, rfl⟩ := List.mem_map.mp hy
      cases x <;> rfl
    · intro y hy u t
      obtain ⟨x, -, rfl⟩ := List.mem_map.mp hy
      cases x <;> simp [HandlerOp.instr]

theorem Initial.wf (h : Initial s) : Wf s := by
  have hstatus : ∀ t, s.status t = if t = 0 then .running else if t = 1 then .ready else .dying :=
    fun t => congrFun h.status t
  have hcode : ∀ t, s.code t =
      if t = 0 then [.semaDown .idleStarted] else if t = 1 then [.intrOn, .idleStart] else [] :=
    fun t => congrFun h.code t
  refine ⟨?_, fun l t ht => by simp [h.holder l] at ht⟩
  constructor <;> simp only [State.queues]
  case running => simp [hstatus, h.current]
  case unique => grind [h.current]
  case fresh => grind [h.threadCnt]
  case ready =>
    simp only [h.readyList, h.idleThread, List.mem_singleton]
    grind
  case readyNodup => simp [h.readyList]
  case waiters =>
    simp only [h.waiters, List.not_mem_nil, false_iff]
    grind
  case waitersNodup => simp [h.waiters]
  case sleep =>
    simp only [h.sleepList, List.not_mem_nil, false_iff]
    grind
  case sleepNodup => simp [h.sleepList]
  case created =>
    intro c t ht
    rw [hcode] at ht
    grind
  case creator =>
    intro c d t ht
    rw [hcode] at ht
    grind
  case idleCode =>
    rw [hcode]
    exact ⟨by simp [Instr.ofIdle], .idleStart, by simp, rfl⟩
  case idleBlocked => simp [hstatus]
  case idleExists => simp [hstatus]
  case idleThread => simp [h.idleThread]
  case belongs =>
    intro t i hi
    rw [hcode] at hi
    split at hi
    · rw [List.mem_singleton.mp hi]
      trivial
    · split at hi
      · rename_i ht
        simp only [List.mem_cons, List.not_mem_nil, or_false] at hi
        rcases hi with rfl | rfl
        · trivial
        · exact ht
      · cases hi

theorem wf_of_reachable (h : machine.Reachable s) : Wf s :=
  System.Reachable.invariant (I := Wf) (fun _ hs => Initial.wf hs)
    (fun _ _ _ hs hn => hs.next hn) h

/-! ## The order of the ready list -/

/-- What a step does to the ready list. -/
abbrev ReadyMove (s s' : State) : Prop := Move s.priority s.readyList s'.priority s'.readyList

theorem threadCmp_iff (s : State) (a b : Tid) : threadCmp s a b ↔ s.priority b < s.priority a :=
  Iff.rfl

theorem Queues.Next.tail {q : Queues} {n : Tid} {l : List Tid} (h : q.Next n l) :
    l = q.readyList.tail := by
  rcases h with h | ⟨h, rfl, -⟩ <;> simp [h]

theorem threadYield_readyMove (h : threadYield s = some s') : ReadyMove s s' := by
  obtain ⟨n, l, hnext, rfl⟩ := schedule_eq h
  have htail := hnext.tail
  have hprio := congrArg Sync.priority (threadYield_sync h)
  by_cases hidle : s.idleThread = some s.current
  · refine .leave (htail.trans ?_) hprio
    simp only [State.queues, State.setStatus, hidle, if_true]
  · refine .rotate s.current _ (threadCmp_iff s) (htail.trans ?_) hprio
    simp only [State.queues, State.setStatus, hidle, if_false]
    rfl

theorem setPriority_readyMove (hready : ∀ t ∈ s.readyList, s.status t = .ready) (t : Tid)
    (p : Int) : ReadyMove s (setPriority s t p) := by
  simp only [setPriority]
  split
  · exact .reposition t _ (threadCmp_iff _) rfl fun u hu => update_of_ne hu ..
  · rename_i hne
    refine .stay rfl fun u hu => update_of_ne ?_ ..
    rintro rfl
    exact hne (hready u hu)

theorem exec_readyMove (hready : ∀ t ∈ s.readyList, s.status t = .ready)
    (hfresh : s.status s.threadCnt = .dying) (hn : exec s i = some s') : ReadyMove s s' := by
  have hblock : ∀ {z : State}, z.readyList = s.readyList → z.priority = s.priority →
      threadBlock z = some s' → ReadyMove s s' := by
    intro z hz hp hn
    obtain ⟨n, l, hnext, rfl⟩ := schedule_eq hn
    exact .leave (hnext.tail.trans (congrArg List.tail hz)) hp
  cases exec_dispatch hn with
  | keep _ h | tick h => exact .same (congrArg Sched.readyList h) (congrArg Sched.priority h)
  | block _ hz _ hb | sleep _ hz _ hb =>
    exact hblock (congrArg Sched.readyList hz) (congrArg Sched.priority hz) hb
  | yield hy => exact threadYield_readyMove (s := { s with intr := false }) hy
  | wake t _ h =>
    exact .insert t _ (threadCmp_iff s) (congrArg Sched.readyList h) (congrArg Sched.priority h)
  | prioritise t p _ _ h =>
    have hmove := setPriority_readyMove hready t p
    rwa [ReadyMove, show (setPriority s t p).priority = s'.priority from
      (congrArg Sched.priority h).symm, show (setPriority s t p).readyList = s'.readyList from
      (congrArg Sched.readyList h).symm] at hmove
  | create p h =>
    refine .stay (congrArg Sched.readyList h) fun t ht =>
      (congrFun (congrArg Sched.priority h) t).trans (update_of_ne ?_ ..)
    rintro rfl
    have hr := hready _ ht
    rw [hfresh] at hr
    cases hr

/-- A step puts at most one thread into the ready list. -/
theorem Wf.readyMove {a : Label} (h : Wf s) (hn : Threads.next s a = some s') : ReadyMove s s' := by
  cases a with
  | call op =>
    simp only [Threads.next] at hn
    split at hn <;> cases hn
    exact .same rfl rfl
  | run =>
    simp only [Threads.next] at hn
    split at hn
    · cases hn
    · refine exec_readyMove (s := s.pop _) (fun t ht => ?_) ?_ hn
      · exact ((h.queues.ready t).mp ht).1
      · exact (h.queues.fresh _ le_rfl).1
  | timer | device l =>
    simp only [Threads.next, Threads.interrupt] at hn
    split at hn <;> cases hn
    exact .same rfl rfl

theorem descending_of_reachable (h : machine.Reachable s) : Descending s.priority s.readyList := by
  suffices Wf s ∧ Descending s.priority s.readyList from this.2
  refine System.Reachable.invariant (I := fun s => Wf s ∧ Descending s.priority s.readyList)
    (fun s hs => ⟨Initial.wf hs, ?_⟩) (fun s a s' hs hn => ⟨hs.1.next hn, ?_⟩) h
  · rw [Initial.readyList hs]
    simp [Descending]
  · exact (hs.1.readyMove hn).descending hs.2 hs.1.queues.readyNodup

/-- The ready list holds every ready thread but the idle thread, once, in the
    order of their priorities; a thread that becomes ready or gets another
    priority goes behind the threads of at least its priority; and one thread
    runs. -/
theorem readyList_ordered (h : machine.Reachable s) :
    (∀ t, t ∈ s.readyList ↔ s.status t = .ready ∧ s.idleThread ≠ some t) ∧
    s.readyList.Nodup ∧
    s.readyList.Pairwise (fun a b => s.priority b ≤ s.priority a) ∧
    (∀ a s', machine.next s a = some s' → ∀ t ∈ s'.readyList,
      t ∉ s.readyList ∨ s'.priority t ≠ s.priority t → Placed s'.priority t s'.readyList) ∧
    ∃! t, s.status t = .running := by
  have hwf := wf_of_reachable h
  have hd := descending_of_reachable h
  refine ⟨hwf.queues.ready, hwf.queues.readyNodup, hd, fun a s' hn t ht hnew => ?_,
    s.current, hwf.queues.running, hwf.queues.unique⟩
  exact (hwf.readyMove hn).placed hd hwf.queues.readyNodup ht hnew

/-- The initial thread creates a thread of its own priority behind one of a lower
    priority. -/
theorem readyList_ordered_created : ∃ s, machine.Reachable s ∧ s.readyList = [3, 2] ∧
    s.readyList.Pairwise (fun a b => s.priority b ≤ s.priority a) := by
  obtain ⟨s, hs, hp⟩ := System.reachable_of_run boot_initial (S := machine)
    (l := bootLabels ++ .call (.threadCreate 20) :: List.replicate 7 .run ++
      .call (.threadCreate 31) :: List.replicate 7 .run)
    (p := fun s => s.readyList == [3, 2]) (by decide)
  exact ⟨s, hs, by simpa using hp, (readyList_ordered hs).2.2.1⟩

/-- A thread that sleeps or waits is on the list that its next instruction tells; and no thread
    is twice among the running one, the ready ones, those that sleep and those that wait for
    a semaphore. -/
theorem threads_on_one_list (h : machine.Reachable s) :
    (∀ t, t ∈ s.sleepList ↔ s.status t = .blocked ∧ (s.code t).head? = some .afterSleep) ∧
    (∀ m t, t ∈ s.waiters m ↔ s.status t = .blocked ∧ s.queues.retries t = some m) ∧
    ∀ l : List SemaId, l.Nodup →
      (s.current :: (s.readyList ++ (s.sleepList ++ l.flatMap s.waiters))).Nodup := by
  have hq := (wf_of_reachable h).queues
  refine ⟨hq.sleep, hq.waiters, fun l hl => ?_⟩
  have hblocked : ∀ t ∈ s.sleepList ++ l.flatMap s.waiters, s.status t = .blocked := by
    intro t ht
    rcases List.mem_append.mp ht with ht | ht
    · exact ((hq.sleep t).mp ht).1
    · obtain ⟨m, -, ht⟩ := List.mem_flatMap.mp ht
      exact ((hq.waiters m t).mp ht).1
  have hrunning : s.status s.current = .running := hq.running
  have hready : ∀ t ∈ s.readyList, s.status t = .ready := fun t ht => ((hq.ready t).mp ht).1
  rw [List.nodup_cons, List.nodup_append', List.nodup_append', List.nodup_flatMap]
  refine ⟨fun hmem => ?_, hq.readyNodup, ⟨hq.sleepNodup, ⟨fun m _ => hq.waitersNodup m, ?_⟩, ?_⟩, ?_⟩
  · rcases List.mem_append.mp hmem with hmem | hmem
    · exact absurd (hrunning.symm.trans (hready _ hmem)) (by decide)
    · exact absurd (hrunning.symm.trans (hblocked _ hmem)) (by decide)
  · refine hl.imp fun {a b} hne t ha hb => hne ?_
    exact Option.some.inj (((hq.waiters a t).mp ha).2.symm.trans ((hq.waiters b t).mp hb).2)
  · intro t ht hw
    obtain ⟨m, -, hw⟩ := List.mem_flatMap.mp hw
    have hretries := ((hq.waiters m t).mp hw).2
    rw [Queues.retries, ((hq.sleep t).mp ht).2] at hretries
    cases hretries
  · exact fun t ht hw => absurd ((hready t ht).symm.trans (hblocked t hw)) (by decide)

/-- Thread 4 is ready, thread 3 sleeps and thread 2 waits for a semaphore. -/
theorem threads_on_one_list_waiting : ∃ s, machine.Reachable s ∧ s.readyList = [4] ∧
    s.sleepList = [3] ∧ s.waiters (.plain 5) = [2] ∧
    s.status 2 = .blocked ∧ s.queues.retries 2 = some (.plain 5) ∧
    (s.current :: (s.readyList ++ (s.sleepList ++ [.plain 5].flatMap s.waiters))).Nodup := by
  obtain ⟨s, hs, hp⟩ := System.reachable_of_run boot_initial (S := machine)
    (l := bootLabels ++ .call (.threadCreate 40) :: List.replicate 9 .run ++
      .call (.semaDown 5) :: List.replicate 2 .run ++
      .call (.threadCreate 40) :: List.replicate 9 .run ++
      .call (.timerSleep 3) :: List.replicate 2 .run ++
      .call (.threadCreate 20) :: List.replicate 7 .run)
    (p := fun s => s.readyList == [4] && s.sleepList == [3] && s.waiters (.plain 5) == [2])
    (by decide +kernel)
  simp only [Bool.and_eq_true, beq_iff_eq] at hp
  obtain ⟨⟨hready, hsleep⟩, hwaiters⟩ := hp
  obtain ⟨-, hwaits, hnodup⟩ := threads_on_one_list hs
  obtain ⟨hblocked, hretries⟩ := (hwaits (.plain 5) 2).mp (by simp [hwaiters])
  exact ⟨s, hs, hready, hsleep, hwaiters, hblocked, hretries, hnodup _ (by simp)⟩

end Pintos.Threads
