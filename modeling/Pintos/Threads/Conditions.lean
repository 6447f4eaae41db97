/-
  Pintos.Threads.Conditions

  Condition variables.  `cond_wait` puts the caller on the list of the condition
  before it releases the lock and before it waits on its own semaphore, and the
  comparison of `cond_signal` looks into the semaphores of two waiters: it fails
  when one of them has not come to its `sema_down`.

  The threads, seen by the phase of the operation they are in, are a monitor in
  the sense of `Pintos.Base.Monitor`.  What lies on top of that operation (the
  end of a `sema_up`, an interrupt handler, a yield) does not belong to it.
-/

import Pintos.Base.Monitor
import Pintos.Threads.Donors
import Pintos.Threads.Semaphores

namespace Pintos.Threads

open Pintos.Base Function

variable {s s' : State} {i : Instr} {rest : List Instr} {y : Sync} {t w : Tid} {l : LockId}
  {p : Phase Tid CondId LockId} {c : CondId} {b : Bool}

/-! ## The operation a thread is in -/

/-- An interrupt handler, or the end of an operation that gives way to another
    thread. -/
def Instr.background : Instr → Bool
  | .intrOn | .yield | .upTest _ | .timerTick | .timerWake | .intrSemaUp _ | .semaTryDown _
  | .unblock _ | .intrReturn => true
  | _ => false

/-- The instructions of the operation a thread is in. -/
def body (code : List Instr) : List Instr := code.dropWhile Instr.background

/-- Not an instruction of `cond_wait`, `cond_signal` or `cond_broadcast`, except
    those for the lock. -/
@[simp] def Instr.plain : Instr → Bool
  | .condPush .. | .condSignal .. | .condScan .. | .condRemove .. | .condBroadcast ..
  | .semaDown (.waiter _) | .semaRetry (.waiter _) | .semaUp (.waiter _) => false
  | _ => true

section

variable (assoc : CondId → LockId)

/-- What is left of `cond_broadcast` in one of its passes. -/
def pass (c : CondId) : Bool → List Instr
  | true => [.condBroadcast c (assoc c)]
  | false => []

/-- The phase of a thread with these instructions; `assoc` is the lock of a
    condition. -/
inductive Shaped (t : Tid) : List Instr → Phase Tid CondId LockId → Prop
  | plain {code : List Instr} (h : ∀ x ∈ code, x.plain = true) : Shaped t code .other
  | push (c : CondId) :
    Shaped t [.condPush c (assoc c), .release (assoc c), .semaDown (.waiter t), .acquire (assoc c)]
      (.enters c)
  | release (l : LockId) : Shaped t [.release l, .semaDown (.waiter t), .acquire l] (.waits l)
  | lockUp (l : LockId) : Shaped t [.semaUp (.lock l), .semaDown (.waiter t), .acquire l] (.waits l)
  | down (l : LockId) : Shaped t [.semaDown (.waiter t), .acquire l] (.waits l)
  | retry (l : LockId) : Shaped t [.semaRetry (.waiter t), .acquire l] (.waits l)
  | acquire (l : LockId) : Shaped t [.acquire l] (.reacquires l)
  | propagate (x : Option LockId) (depth : Nat) (l : LockId) :
    Shaped t [.propagate x depth, .lockDown l] (.reacquires l)
  | lockDown (l : LockId) : Shaped t [.lockDown l] (.reacquires l)
  | lockRetry (l : LockId) : Shaped t [.lockRetry l] (.reacquires l)
  | signal (c : CondId) (b : Bool) : Shaped t (.condSignal c (assoc c) :: pass assoc c b) (.signals c b)
  | scan (c : CondId) (max : Tid) (rest : List Tid) (b : Bool) :
    Shaped t (.condScan c max rest :: pass assoc c b) (.scans c max rest b)
  | up (c : CondId) (w : Tid) (b : Bool) :
    Shaped t (.semaUp (.waiter w) :: .condRemove c w :: pass assoc c b) (.ups c w b)
  | remove (c : CondId) (w : Tid) (b : Bool) :
    Shaped t (.condRemove c w :: pass assoc c b) (.removes c w b)
  | broadcast (c : CondId) : Shaped t [.condBroadcast c (assoc c)] (.broadcasts c)

end

/-! ## The record of calls -/

/-- For each thread, its last call of an operation on conditions, the list of the
    condition at that moment, and the threads whose semaphore it has raised
    since. -/
structure Calls where
  last : Tid → Option Call
  before : Tid → List Tid
  woken : Tid → List Tid

/-- The current thread calls an operation on `c`. -/
def Calls.begin (r : Calls) (s : State) (x : Call) (c : CondId) : Calls where
  last := update r.last s.current (some x)
  before := update r.before s.current (s.condWaiters c)
  woken := update r.woken s.current []

def trackCalls (s : State) (r : Calls) : Label → Calls
  | .call (.condWait c _) => r.begin s .wait c
  | .call (.condSignal c _) => r.begin s .signal c
  | .call (.condBroadcast c _) => r.begin s .broadcast c
  | .run =>
    match s.code s.current with
    | .semaUp (.waiter w) :: _ =>
      { r with woken := update r.woken s.current (r.woken s.current ++ [w]) }
    | _ => r
  | _ => r

/-- The machine with the record of calls. -/
def condTraced : System (State × Calls) Label where
  start p := Initial p.1 ∧ p.2 = ⟨fun _ => none, fun _ => [], fun _ => []⟩
  next p a := (next p.1 a).map fun s => (s, trackCalls p.1 p.2 a)

/-- The threads as a monitor. -/
def Sync.monitor (y : Sync) (r : Calls) (phase : Tid → Phase Tid CondId LockId) :
    Monitor Tid CondId LockId where
  phase := phase
  lists := y.condWaiters
  value t := y.value (.waiter t)
  parked t := decide (t ∈ y.waiters (.waiter t))
  holder := y.holder
  rank := y.priority
  last := r.last
  before := r.before
  woken := r.woken

/-! ## Background and plain instructions -/

theorem body_append {l code : List Instr} (hl : ∀ x ∈ l, x.background = true) :
    body (l ++ code) = body code := by
  induction l with
  | nil => rfl
  | cons x l ih =>
    have hx := hl x List.mem_cons_self
    have ih := ih fun y hy => hl y (List.mem_cons_of_mem _ hy)
    simpa [body, List.dropWhile_cons, hx] using ih

theorem body_cons_of_not {code : List Instr} (hi : i.background = false) :
    body (i :: code) = i :: code := by
  simp [body, hi]

theorem body_subset {code : List Instr} {x : Instr} (hx : x ∈ body code) : x ∈ code :=
  (List.dropWhile_sublist _).subset hx

theorem Effect.body_other (hwf : Wf s) (h : Effect (s.pop rest) i y)
    (ht : t ≠ s.current) : body (y.code t) = body (s.code t) := by
  rcases h.code_other ht with h | ⟨rfl, h⟩
  · rw [h]
  · rw [h, show s.code s.threadCnt = [] from (hwf.queues.fresh _ (Nat.le_refl _)).2]
    rfl

theorem Pushes.background {l : List Instr} (h : Pushes s i l) (hi : i.background = true) :
    ∀ x ∈ l, x.background = true := by
  cases h with
  | quiet h => cases h <;> simp_all [Instr.background]
  | wait _ hi' | lockWait _ hi' => rcases hi' with rfl | rfl <;> cases hi
  | nothing | timerTick | intrYield | up => simp [Instr.background]
  | _ => cases hi

/-- A background instruction goes on with background instructions. -/
theorem Effect.background (hwf : Wf s) (h : Effect (s.pop rest) i y) (hi : i.background = true) :
    body (y.code s.current) = body rest := by
  obtain ⟨l, hl, hl'⟩ := h.pushes hwf.queues.current_ne_fresh
  rw [hl', body_append (hl.background hi)]

theorem Effect.background_holder (h : Effect (s.pop rest) i y) (hi : i.background = true) :
    y.holder = s.holder := by
  cases h with
  | lockTake l h' => rcases h' with rfl | rfl <;> cases hi
  | trySet | release => cases hi
  | _ => rfl

/-- Only instructions of `cond_wait`, `cond_signal` and `cond_broadcast` touch
    conditions and the semaphores of their waiters. -/
theorem Effect.plain_monitor (h : Effect (s.pop rest) i y) (hi : i.plain = true)
    (hbelongs : i.belongs s.idleThread s.current) (r : Calls)
    (phase : Tid → Phase Tid CondId LockId) :
    y.monitor r phase =
      { s.sync.monitor r phase with holder := y.holder, rank := y.priority } := by
  -- another semaphore changes
  have hsema : ∀ m v (l : List Tid), (∀ t, m ≠ .waiter t) →
      (fun t => update s.value m v (.waiter t)) = (fun t => s.value (.waiter t)) ∧
      (fun t => decide (t ∈ update s.waiters m l (.waiter t))) =
        fun t => decide (t ∈ s.waiters (.waiter t)) := by
    intro m v l hm
    constructor <;> funext t
    · rw [update_of_ne (Ne.symm (hm t))]
    · rw [update_of_ne (Ne.symm (hm t))]
  have hm : ∀ m, i = .semaDown m ∨ i = .semaRetry m ∨ i = .semaTryDown m ∨ i = .semaUp m ∨
      i = .intrSemaUp m → ∀ t, m ≠ .waiter t := by
    rintro m (rfl | rfl | rfl | rfl | rfl) t rfl
    · cases hi
    · cases hi
    · obtain ⟨n, hn⟩ := hbelongs
      cases hn
    · cases hi
    · obtain ⟨n, hn⟩ := hbelongs
      cases hn
  cases h with
  | wait m hi' h =>
    have := (hsema m 0 ((s.waiters m).orderedInsert (threadCmp (s.pop rest)) s.current)
      (hm m (by tauto))).2
    exact congrArg (fun f => { s.sync.monitor r phase with parked := f }) this
  | take m _ _ | tryDown m _ =>
    have := (hsema m (s.value m - 1) [] (hm m (by tauto))).1
    exact congrArg (fun f => { s.sync.monitor r phase with value := f }) this
  | upNone m hi' h =>
    have := (hsema m ((s.value m + 1) % 2 ^ 32) [] (hm m (by tauto))).1
    exact congrArg (fun f => { s.sync.monitor r phase with value := f }) this
  | up m t l hi' =>
    have := hsema m ((s.value m + 1) % 2 ^ 32) ((s.waiters m).erase t) (hm m (by tauto))
    exact congrArg₂ (fun f g => { s.sync.monitor r phase with value := f, parked := g })
      this.1 this.2
  | lockWait l hi' h =>
    have := (hsema (.lock l) 0
      ((s.waiters (.lock l)).orderedInsert (threadCmp (s.pop rest)) s.current) (by simp)).2
    exact congrArg (fun f => { s.sync.monitor r phase with parked := f }) this
  | lockTake l hi' h =>
    have := (hsema (.lock l) (s.value (.lock l) - 1) [] (by simp)).1
    exact congrArg (fun f => { s.sync.monitor r phase with
      value := f, holder := update s.holder l (some s.current) }) this
  | tryAcquire l hne h =>
    have := (hsema (.lock l) (s.value (.lock l) - 1) [] (by simp)).1
    exact congrArg (fun f => { s.sync.monitor r phase with value := f }) this
  | condPush | condRemove => cases hi
  | _ => rfl

/-- A thread keeps a lock over steps of others. -/
theorem LocksOk.holder_kept (hok : LocksOk s.sync)
    (hcode : s.code s.current = i :: rest) (h : Effect (s.pop rest) i y) (ht : t ≠ s.current)
    (hh : s.holder l = some t) : y.holder l = some t := by
  have hfree : ∀ l', s.holder l' = none → l ≠ l' := by
    rintro l' hnone rfl
    rw [hnone] at hh
    cases hh
  have hne : ∀ l' (o : Option Tid), l ≠ l' → update s.holder l' o l = some t :=
    fun l' o hl => (update_of_ne hl ..).trans hh
  cases h with
  | lockTake l' hi hv =>
    refine hne l' _ ?_
    rintro rfl
    have h0 := hok.free hv t
    have h1 := holds_le_token (s := s) l t
    rw [hh, holds_some, if_pos rfl] at h1
    omega
  | trySet l' => exact hne l' _ (hfree l' (hok.holder_none hcode))
  | release l' hholder =>
    refine hne l' _ ?_
    rintro rfl
    exact ht (Option.some.inj (hh.symm.trans hholder))
  | _ => exact hh

theorem Pushes.plain {l : List Instr} (h : Pushes s i l) (hi : i.plain = true) :
    ∀ x ∈ l, x.plain = true := by
  cases h with
  | quiet h => cases h <;> simp_all
  | wait m hi' => rcases hi' with rfl | rfl <;> cases m <;> simp_all
  | _ => simp

/-- Outside `cond_wait`, `cond_signal` and `cond_broadcast` a thread does not get
    into them. -/
theorem Effect.plain (h : Effect (s.pop rest) i y) (hi : i.plain = true)
    (hfresh : s.current ≠ s.threadCnt) (hrest : ∀ x ∈ rest, x.plain = true) :
    ∀ x ∈ y.code s.current, x.plain = true := by
  obtain ⟨l, hl, hl'⟩ := h.pushes hfresh
  rw [hl']
  exact fun x hx => (List.mem_append.mp hx).elim (hl.plain hi x) (hrest x)

theorem Wf.belongs_head (hwf : Wf s) (hcode : s.code s.current = i :: rest) :
    i.belongs s.idleThread s.current := by
  refine hwf.queues.belongs s.current i ?_
  rw [show s.queues.code s.current = _ from hcode]
  exact List.mem_cons_self

/-! ## One step of the monitor -/

variable {assoc : CondId → LockId} {r : Calls} {phase : Tid → Phase Tid CondId LockId}

/-- The current thread makes a step of the monitor, after ranks have changed; it
    does not get into an operation on conditions by itself. -/
def Follows (assoc : CondId → LockId) (s : State) (r : Calls)
    (phase : Tid → Phase Tid CondId LockId) (y : Sync) (r' : Calls) : Prop :=
  ∃ p, Shaped assoc s.current (body (y.code s.current)) p ∧
    (phase s.current = .other → p = .other) ∧
    Monitor.Step assoc { s.sync.monitor r phase with rank := y.priority } s.current
      (y.monitor r' (update phase s.current p))

theorem Follows.of {r' : Calls} {m : Monitor Tid CondId LockId}
    (hshape : Shaped assoc s.current (body (y.code s.current)) p) (hne : phase s.current ≠ .other)
    (hstep : Monitor.Step assoc { s.sync.monitor r phase with rank := y.priority } s.current m)
    (heq : y.monitor r' (update phase s.current p) = m) : Follows assoc s r phase y r' :=
  ⟨p, hshape, fun h => absurd h hne, heq ▸ hstep⟩

/-- The instruction belongs to the lock, or to no operation on conditions. -/
theorem Follows.plain (hlocks : LocksOk s.sync)
    (hcode : s.code s.current = i :: rest) (h : Effect (s.pop rest) i y) (hi : i.plain = true)
    (hbelongs : i.belongs s.idleThread s.current)
    (hp : phase s.current = .other ∨ ∃ l, phase s.current = .reacquires l ∧
      (p = .reacquires l ∨ s.holder l = none))
    (hp' : p = .other ∨ ∃ l, p = .reacquires l) (hstay : phase s.current = .other → p = .other)
    (hshape : Shaped assoc s.current (body (y.code s.current)) p) :
    Follows assoc s r phase y r := by
  refine ⟨p, hshape, hstay, ?_⟩
  rw [h.plain_monitor hi hbelongs]
  exact .other p y.holder hp hp' fun l t ht hh => hlocks.holder_kept hcode h ht hh

theorem Follows.other (hwf : Wf s) (hlocks : LocksOk s.sync)
    (hcode : s.code s.current = i :: rest) (h : Effect (s.pop rest) i y)
    (hplain : ∀ x ∈ i :: rest, x.plain = true) (hp : phase s.current = .other) :
    Follows assoc s r phase y r := by
  have hi := hplain i List.mem_cons_self
  have hbelongs := hwf.belongs_head hcode
  refine Follows.plain (p := .other) hlocks hcode h hi hbelongs (Or.inl hp) (Or.inl rfl) (fun _ => rfl)
    (.plain ?_)
  intro x hx
  exact h.plain hi (hwf.queues.current_ne_fresh) (fun x hx => hplain x (List.mem_cons_of_mem _ hx)) x
    (body_subset hx)

theorem Shaped.pushed {l : List Instr} (h : Shaped assoc t (body (l ++ rest)) p) :
    Shaped assoc t (body (((s.pop rest).push l).code s.current)) p := by
  rwa [State.pop_push_current]

theorem Shaped.popped (h : Shaped assoc t (body rest) p) :
    Shaped assoc t (body ((s.pop rest).code s.current)) p := by
  rwa [State.pop_current]

/-- `lock_acquire`, with nothing behind it, goes on or has taken the lock. -/
theorem Effect.acquire_shape (h : Effect (s.pop rest) i y)
    (hshape : Shaped assoc t (i :: rest) (.reacquires l)) :
    Shaped assoc t (body (y.code s.current)) (.reacquires l) ∨
      body (y.code s.current) = [] ∧ s.value (.lock l) ≠ 0 := by
  have hnil : body ((s.pop []).code s.current) = [] := by
    rw [State.pop_current]
    rfl
  cases hshape with
  | acquire =>
    cases h with
    | quiet h =>
      cases h
      exact Or.inl (Shaped.pushed (.lockDown l))
    | donate => exact Or.inl (Shaped.pushed (.propagate _ _ l))
    | _ => simp_all
  | propagate x depth =>
    cases h with
    | quiet h =>
      cases h
      exact Or.inl (Shaped.pushed (.lockDown l))
    | propagate => exact Or.inl (Shaped.pushed (.propagate _ _ l))
    | _ => simp_all
  | lockDown | lockRetry =>
    cases h with
    | quiet h => cases h
    | lockWait l' hi =>
      obtain rfl : l = l' := by simpa using hi
      exact Or.inl (Shaped.pushed (.lockRetry l))
    | lockTake l' hi hv =>
      obtain rfl : l = l' := by simpa using hi
      exact Or.inr ⟨hnil, hv⟩
    | _ => simp_all

/-- The thread acquires a lock, and does nothing behind it. -/
theorem Follows.reacquire (hwf : Wf s) (hlocks : LocksOk s.sync)
    (hcode : s.code s.current = i :: rest) (h : Effect (s.pop rest) i y)
    (hshape : Shaped assoc s.current (i :: rest) (.reacquires l))
    (hp : phase s.current = .reacquires l) : Follows assoc s r phase y r := by
  have hbelongs := hwf.belongs_head hcode
  have hi : i.plain = true := by cases hshape <;> rfl
  rcases h.acquire_shape hshape with hs | ⟨hnil, hv⟩
  · exact .plain hlocks hcode h hi hbelongs (Or.inr ⟨l, hp, Or.inl rfl⟩) (Or.inr ⟨l, rfl⟩)
      (by simp [hp]) hs
  · refine .plain hlocks hcode h hi hbelongs (Or.inr ⟨l, hp, Or.inr (hlocks.unheld hv)⟩)
      (Or.inl rfl) (fun _ => rfl) (.plain ?_)
    rw [hnil]
    intro x hx
    cases hx

/-! ## `cond_wait` -/

theorem waiter_value (f : SemaId → Nat) (t : Tid) (v : Nat) :
    (fun u => update f (.waiter t) v (.waiter u)) =
      update (fun u => f (.waiter u)) t v := by
  funext u
  by_cases hu : u = t
  · subst hu
    simp
  · simp [hu]

theorem waiter_parked (f : SemaId → List Tid) (t : Tid) (l : List Tid) :
    (fun u => decide (u ∈ update f (.waiter t) l (.waiter u))) =
      update (fun u => decide (u ∈ f (.waiter u))) t (decide (t ∈ l)) := by
  funext u
  by_cases hu : u = t
  · subst hu
    simp
  · simp [hu]

theorem Wf.not_parked (hwf : Wf s) : decide (s.current ∈ s.waiters (.waiter s.current)) = false :=
  decide_eq_false (hwf.not_waiting _)

/-- The current thread is not parked, and stays so. -/
theorem Wf.unparked (hwf : Wf s) :
    update (fun u => decide (u ∈ s.waiters (.waiter u))) s.current false =
      fun u => decide (u ∈ s.waiters (.waiter u)) := by
  rw [← hwf.not_parked, update_eq_self]

theorem Follows.push (hwf : Wf s)
    (h : Effect (s.pop [.release (assoc c), .semaDown (.waiter s.current), .acquire (assoc c)])
      (.condPush c (assoc c)) y) (hp : phase s.current = .enters c) :
    Follows assoc s r phase y r := by
  cases h with
  | quiet h => cases h
  | condPush c' l' hholder =>
    refine .of (Shaped.popped (.release (assoc c))) (by simp [hp]) (.enter c hp) ?_
    exact Monitor.ext rfl rfl (waiter_value ..) ((waiter_parked ..).trans hwf.unparked)
      rfl rfl rfl rfl rfl
  | _ => simp_all

/-- A step in `cond_wait` that does not touch the semaphore. -/
theorem Follows.wait (hwf : Wf s) (hp : phase s.current = .waits l)
    (hshape : Shaped assoc s.current (body (y.code s.current)) (.waits l))
    (hvalue : (fun t => y.value (.waiter t)) = fun t => s.value (.waiter t))
    (hparked : (fun t => decide (t ∈ y.waiters (.waiter t))) =
      fun t => decide (t ∈ s.waiters (.waiter t)))
    (hlists : y.condWaiters = s.condWaiters)
    (hholder : ∀ l t, t ≠ s.current → s.holder l = some t → y.holder l = some t) :
    Follows assoc s r phase y r := by
  have hsame : update phase s.current (.waits l) = phase := by
    rw [← hp, update_eq_self]
  refine .of hshape (by simp [hp]) (.wait l false y.holder hp hwf.not_parked (by simp) hholder) ?_
  exact Monitor.ext hsame hlists hvalue (hparked.trans hwf.unparked.symm) rfl rfl rfl rfl rfl

/-- `lock_release` in `cond_wait`. -/
theorem Follows.release (hwf : Wf s)
    (h : Effect (s.pop [.semaDown (.waiter s.current), .acquire l]) (.release l) y)
    (hp : phase s.current = .waits l) : Follows assoc s r phase y r := by
  cases h with
  | quiet h => cases h
  | release l' hholder =>
    refine .wait hwf hp (Shaped.pushed (.lockUp l)) rfl rfl rfl fun l' t ht hh => ?_
    have hne : l' ≠ l := by
      rintro rfl
      exact ht (Option.some.inj (hh.symm.trans hholder))
    exact (update_of_ne hne ..).trans hh
  | _ => simp_all

/-- `sema_up` of the lock in `cond_wait`. -/
theorem Follows.lockUp (hwf : Wf s)
    (h : Effect (s.pop [.semaDown (.waiter s.current), .acquire l]) (.semaUp (.lock l)) y)
    (hp : phase s.current = .waits l) : Follows assoc s r phase y r := by
  have hmonitor := h.plain_monitor rfl trivial r phase
  have hvalue := congrArg Monitor.value hmonitor
  have hparked := congrArg Monitor.parked hmonitor
  rcases h.semaUp_cases with ⟨-, rfl⟩ | ⟨t, -, -, rfl⟩
  · exact .wait hwf hp (Shaped.popped (.down l)) hvalue hparked rfl fun _ _ _ hh => hh
  · exact .wait hwf hp (Shaped.pushed (.down l)) hvalue hparked rfl fun _ _ _ hh => hh

/-- `sema_down` in `cond_wait`. -/
theorem Follows.down (hwf : Wf s)
    (hi : i = .semaDown (.waiter s.current) ∨ i = .semaRetry (.waiter s.current))
    (h : Effect (s.pop [.acquire l]) i y) (hp : phase s.current = .waits l) :
    Follows assoc s r phase y r := by
  have hsame : update phase s.current (.waits l) = phase := by
    rw [← hp, update_eq_self]
  rcases h.semaDown_cases hi with ⟨hv, rfl⟩ | ⟨hv, rfl⟩
  · have hmem : s.current ∈ (s.waiters (.waiter s.current)).orderedInsert
        (threadCmp (s.pop [.acquire l])) s.current :=
      (List.mem_orderedInsert ..).mpr (Or.inl rfl)
    refine .of (Shaped.pushed (.retry l)) (by simp [hp])
      (.wait l true s.holder hp hwf.not_parked (fun _ => hv) fun _ _ _ hh => hh) ?_
    refine Monitor.ext hsame rfl rfl ((waiter_parked ..).trans ?_) rfl rfl rfl rfl rfl
    exact congrArg (update _ s.current) (decide_eq_true hmem)
  · refine .of (Shaped.popped (.acquire l)) (by simp [hp]) (.take l hp hwf.not_parked hv) ?_
    exact Monitor.ext rfl rfl (waiter_value ..) rfl rfl rfl rfl rfl rfl

/-! ## `cond_signal` and `cond_broadcast` -/

theorem Follows.signal
    (hsettled : (s.condWaiters c).length ≤ 1 ∨ ∀ w ∈ s.condWaiters c, w ∈ s.waiters (.waiter w))
    (h : Effect (s.pop (pass assoc c b)) (.condSignal c (assoc c)) y)
    (hp : phase s.current = .signals c b) : Follows assoc s r phase y r := by
  cases h with
  | quiet h =>
    cases h with
    | signalNone _ _ hnil =>
      refine .of (p := .after c b) (Shaped.pushed ?_) (by simp [hp]) (.signalNone c b hp hnil) rfl
      cases b
      · exact .plain (by simp [pass, body])
      · exact .broadcast c
    | signal _ _ w ws hl =>
      refine .of (Shaped.pushed (.scan c w ws b)) (by simp [hp]) (.signal c b w ws hp hl ?_) rfl
      intro hws u hu
      refine decide_eq_true ?_
      rcases hsettled with hle | hall
      · rw [show s.condWaiters c = w :: ws from hl] at hle
        exact absurd (List.eq_nil_of_length_eq_zero (by simpa using hle)) hws
      · exact hall u hu
  | _ => simp_all

/-- Only its own thread waits on the semaphore of a waiter. -/
theorem Wf.waiter_eq (hwf : Wf s) {u : Tid} (hu : u ∈ s.waiters (.waiter w)) : u = w := by
  obtain ⟨-, hretry⟩ := (hwf.queues.waiters (.waiter w) u).mp hu
  obtain ⟨x, hx, hretries⟩ := Option.bind_eq_some_iff.mp hretry
  have hbelongs := hwf.queues.belongs u x (List.mem_of_mem_head? hx)
  cases x with
  | semaRetry m =>
    cases hretries
    exact hbelongs.symm
  | lockRetry l => cases hretries
  | _ => cases hretries

theorem Follows.scan {max : Tid} {ws : List Tid} (hwf : Wf s)
    (h : Effect (s.pop (pass assoc c b)) (.condScan c max ws) y)
    (hp : phase s.current = .scans c max ws b) : Follows assoc s r phase y r := by
  cases h with
  | quiet h =>
    cases h with
    | scanned => exact .of (Shaped.pushed (.up c max b)) (by simp [hp]) (.chosen c b max hp) rfl
    | scan _ _ w ws a d ha hd =>
      -- the front of the semaphore of a waiter is the waiter
      obtain rfl : a = max := hwf.waiter_eq (List.mem_of_mem_head? ha)
      obtain rfl : d = w := hwf.waiter_eq (List.mem_of_mem_head? hd)
      exact .of (Shaped.pushed (.scan c _ ws b)) (by simp [hp]) (.scan c b a d ws hp) rfl
  | _ => simp_all

theorem Follows.up (hwf : Wf s)
    (h : Effect (s.pop (.condRemove c w :: pass assoc c b)) (.semaUp (.waiter w)) y)
    (hp : phase s.current = .ups c w b) :
    Follows assoc s r phase y
      { r with woken := update r.woken s.current (r.woken s.current ++ [w]) } := by
  have hv : s.value (.waiter w) = 0 → (s.value (.waiter w) + 1) % 2 ^ 32 = 1 := by
    intro h0
    omega
  rcases h.semaUp_cases with ⟨hnil, rfl⟩ | ⟨t, ht, -, rfl⟩
  · refine .of (Shaped.popped (.remove c w b)) (by simp [hp]) (.up c b w _ hp hv) ?_
    refine Monitor.ext rfl rfl (waiter_value ..) ?_ rfl rfl rfl rfl rfl
    show (fun u => decide (u ∈ s.waiters (.waiter u))) = _
    have hfalse : decide (w ∈ s.waiters (.waiter w)) = false := by
      rw [show s.waiters (.waiter w) = [] from hnil]
      rfl
    exact (update_eq_self_iff.mpr hfalse.symm).symm
  · obtain rfl : t = w := hwf.waiter_eq ht
    have hmem : t ∉ (s.waiters (.waiter t)).erase t :=
      (hwf.queues.waitersNodup (.waiter t)).not_mem_erase
    refine .of (Shaped.pushed (.remove c t b)) (by simp [hp]) (.up c b t _ hp hv) ?_
    refine Monitor.ext rfl rfl (waiter_value ..) ((waiter_parked ..).trans ?_) rfl rfl rfl rfl rfl
    exact congrArg (update _ t) (decide_eq_false hmem)

theorem Follows.remove (h : Effect (s.pop (pass assoc c b)) (.condRemove c w) y)
    (hp : phase s.current = .removes c w b) : Follows assoc s r phase y r := by
  cases h with
  | quiet h => cases h
  | condRemove =>
    refine .of (p := .after c b) (Shaped.popped ?_) (by simp [hp]) (.remove c b w hp) rfl
    cases b
    · exact .plain (by simp [pass, body])
    · exact .broadcast c
  | _ => simp_all

theorem Follows.broadcast (h : Effect (s.pop []) (.condBroadcast c (assoc c)) y)
    (hp : phase s.current = .broadcasts c) : Follows assoc s r phase y r := by
  cases h with
  | quiet h =>
    cases h with
    | broadcastNone _ _ hnil =>
      exact .of (Shaped.pushed (.plain (by simp [body]))) (by simp [hp]) (.done c hp hnil) rfl
    | broadcast _ _ hne => exact .of (Shaped.pushed (.signal c true)) (by simp [hp]) (.pass c hp hne) rfl
  | _ => simp_all

/-! ## The condition -/

/-- The condition whose waiters a thread in `cond_signal` compares, up to the
    `sema_up` of the one it has chosen. -/
def choosing (code : List Instr) : Option CondId :=
  match body code with
  | .condScan c _ _ :: _ => some c
  | .semaUp (.waiter _) :: .condRemove c _ :: _ => some c
  | _ => none

/-- `cond_wait`, `cond_signal` and `cond_broadcast` are called by the holder of
    the lock of the condition. -/
def lockHeld (assoc : CondId → LockId) (p : State × Calls) : Label → Prop
  | .call (.condWait c l) | .call (.condSignal c l) | .call (.condBroadcast c l) =>
    l = assoc c ∧ p.1.holder l = some p.1.current
  | _ => True

/-- When `cond_signal` begins with more than one waiter, all of them are blocked
    in their `sema_down`; and while it compares them, no donation raises the
    priority of one of them. -/
def settled (s : State) : Label → Prop
  | .run =>
    match s.code s.current with
    | .condSignal c _ :: _ =>
      (s.condWaiters c).length ≤ 1 ∨ ∀ w ∈ s.condWaiters c, w ∈ s.waiters (.waiter w)
    | .propagate (some l) depth :: _ =>
      ∀ h ∈ s.holder l, s.priority h < s.priority s.current → depth < DONATION_DEPTH →
        ∀ t < s.threadCnt, ∀ c ∈ choosing (s.code t), 2 ≤ (s.condWaiters c).length →
          h ∉ s.condWaiters c
    | _ => True
  | _ => True

def monitored (assoc : CondId → LockId) (p : State × Calls) (a : Label) : Prop :=
  lockHeld assoc p a ∧ settled p.1 a

instance (assoc : CondId → LockId) (p : State × Calls) (a : Label) :
    Decidable (lockHeld assoc p a) := by
  apply @Label.casesOn _ a
  case call =>
    intro op
    apply @Op.casesOn _ op <;> intros <;> first | exact instDecidableTrue | exact instDecidableAnd
  all_goals intros; exact instDecidableTrue

instance (s : State) (a : Label) : Decidable (settled s a) := by
  apply @Label.casesOn _ a
  case run =>
    delta settled
    generalize s.code s.current = code
    apply @List.casesOn _ _ code
    case nil => exact instDecidableTrue
    case cons =>
      intro i rest
      apply @Instr.casesOn _ i
      case propagate =>
        intro l depth
        apply @Option.casesOn _ _ l <;> intros <;> dsimp only <;> infer_instance
      all_goals intros; dsimp only; infer_instance
  all_goals intros; exact instDecidableTrue

instance (assoc : CondId → LockId) (p : State × Calls) (a : Label) :
    Decidable (monitored assoc p a) := inferInstanceAs (Decidable (_ ∧ _))

/-- The threads are a monitor in order. -/
structure CondOk (assoc : CondId → LockId) (s : State) (r : Calls)
    (phase : Tid → Phase Tid CondId LockId) : Prop where
  wf : Wf s
  locks : LocksOk s.sync
  shaped : ∀ t, Shaped assoc t (body (s.code t)) (phase t)
  monitor : (s.sync.monitor r phase).Ok assoc
  ordered : (s.sync.monitor r phase).Ordered
  counted : (s.sync.monitor r phase).Counted

theorem trackCalls_run (hcode : s.code s.current = i :: rest)
    (hi : ∀ w, i ≠ .semaUp (.waiter w)) : trackCalls s r .run = r := by
  simp only [trackCalls, hcode]
  split
  · rename_i w _ heq
    cases heq
    exact absurd rfl (hi w)
  · rfl

/-- The operation of the current thread makes a step. -/
theorem CondOk.follows (h : CondOk assoc s r phase) (hok : settled s .run)
    (hcode : s.code s.current = i :: rest) (hi : i.background = false)
    (heff : Effect (s.pop rest) i y) : Follows assoc s r phase y (trackCalls s r .run) := by
  have hshape := h.shaped s.current
  rw [hcode, body_cons_of_not hi] at hshape
  have hkept : (∀ w, i ≠ .semaUp (.waiter w)) → Follows assoc s r phase y r →
      Follows assoc s r phase y (trackCalls s r .run) := by
    intro hi hf
    rwa [trackCalls_run hcode hi]
  generalize hp : phase s.current = p at hshape
  cases hshape with
  | plain hplain =>
    refine hkept ?_ (.other h.wf h.locks hcode heff hplain hp)
    rintro w rfl
    exact absurd (hplain _ List.mem_cons_self) (by simp)
  | push c => exact hkept (by simp) (.push h.wf heff hp)
  | release l => exact hkept (by simp) (.release h.wf heff hp)
  | lockUp l => exact hkept (by simp) (.lockUp h.wf heff hp)
  | down l => exact hkept (by simp) (.down h.wf (Or.inl rfl) heff hp)
  | retry l => exact hkept (by simp) (.down h.wf (Or.inr rfl) heff hp)
  | acquire l => exact hkept (by simp) (.reacquire h.wf h.locks hcode heff (.acquire l) hp)
  | propagate x depth l =>
    exact hkept (by simp) (.reacquire h.wf h.locks hcode heff (.propagate x depth l) hp)
  | lockDown l => exact hkept (by simp) (.reacquire h.wf h.locks hcode heff (.lockDown l) hp)
  | lockRetry l => exact hkept (by simp) (.reacquire h.wf h.locks hcode heff (.lockRetry l) hp)
  | signal c b =>
    simp only [settled, hcode] at hok
    exact hkept (by simp) (.signal hok heff hp)
  | scan c max ws b => exact hkept (by simp) (.scan h.wf heff hp)
  | up c w b =>
    have htrack : trackCalls s r .run =
        { r with woken := update r.woken s.current (r.woken s.current ++ [w]) } := by
      simp only [trackCalls, hcode]
    rw [htrack]
    exact .up h.wf heff hp
  | remove c w b => exact hkept (by simp) (.remove heff hp)
  | broadcast c => exact hkept (by simp) (.broadcast heff hp)

theorem Effect.raised {u : Tid} {x : Option LockId} {depth : Nat}
    (h : Effect s (.propagate x depth) y) (hu : y.priority u ≠ s.priority u) :
    ∃ l, x = some l ∧ s.holder l = some u ∧ s.priority u < s.priority s.current ∧
      depth < DONATION_DEPTH := by
  cases h with
  | quiet h => exact absurd rfl hu
  | propagate l depth h hdepth hholder hlt =>
    by_cases heq : u = h
    · subst heq
      exact ⟨l, rfl, hholder, hlt, hdepth⟩
    · exact absurd (update_of_ne heq ..) hu
  | _ => simp_all

theorem Shaped.choosing {code : List Instr}
    (h : Shaped assoc t (body code) p) (hc : p.chooses = some c) :
    Threads.choosing code = some c := by
  simp only [Threads.choosing]
  generalize body code = l at h
  cases h <;> simp_all [Phase.chooses]

section

variable (h : CondOk assoc s r phase)

include h

/-- A thread on a list, while its condition is signalled, waits. -/
theorem CondOk.waits_of_mem {u : Tid} (ht : (phase t).chooses = some c) (hu : u ∈ s.condWaiters c) :
    phase u = .waits (assoc c) ∧ s.holder (assoc c) = some t := by
  have hsig : (phase t).signalled = some c := by
    cases hp : phase t <;> simp_all [Phase.chooses, Phase.signalled]
  have hholder : s.holder (assoc c) = some t := h.monitor.signalled t c hsig
  refine ⟨?_, hholder⟩
  rcases h.monitor.listed c u hu with ⟨hp, -⟩ | ⟨hrem, -⟩
  · exact hp
  · obtain ⟨t', b, ht', hp'⟩ := h.monitor.removing_holder hrem
    have ht' : s.holder (assoc c) = some t' := ht'
    obtain rfl : t = t' := Option.some.inj (hholder.symm.trans ht')
    rw [show phase t = _ from hp'] at ht
    cases ht

/-- The priorities of waiters stay while they are compared. -/
theorem CondOk.rank_kept (hok : settled s .run)
    (hcode : s.code s.current = i :: rest) (heff : Effect (s.pop rest) i y)
    (ht : (phase t).chooses = some c) :
    s.condWaiters c = [] ∨ (∃ u, s.condWaiters c = [u]) ∨
      ∀ u ∈ s.condWaiters c, y.priority u = s.priority u := by
  by_cases hlen : (s.condWaiters c).length ≤ 1
  · rcases Nat.le_one_iff_eq_zero_or_eq_one.mp hlen with h0 | h1
    · exact Or.inl (List.eq_nil_of_length_eq_zero h0)
    · exact Or.inr (Or.inl (List.length_eq_one_iff.mp h1))
  refine Or.inr (Or.inr fun u hu => ?_)
  obtain ⟨hwaits, hholder⟩ := h.waits_of_mem ht hu
  have hshape := h.shaped u
  rw [hwaits] at hshape
  by_contra hne
  rcases heff.priority u with heq | ⟨rfl, hi⟩ | ⟨-, -, -, x, depth, rfl⟩ | ⟨rfl, p, rfl⟩
  · exact hne heq
  · -- a waiter that runs releases the lock, which the signaller holds
    have hback : i.background = false := by
      rcases hi with rfl | ⟨l, rfl⟩ <;> rfl
    rw [hcode, body_cons_of_not hback] at hshape
    rcases hi with rfl | ⟨l, rfl⟩
    · cases hshape
    · cases hshape
      cases heff with
      | quiet h => cases h
      | release _ hcur =>
        obtain rfl : s.current = t := Option.some.inj (hcur.symm.trans hholder)
        rw [hwaits] at ht
        cases ht
      | _ => simp_all
  · obtain ⟨l, rfl, hl, hlt, hdepth⟩ := heff.raised hne
    simp only [settled, hcode] at hok
    have hcnt : t < s.threadCnt := by
      by_contra hge
      have hnil : s.code t = [] := (h.wf.queues.fresh t (Nat.le_of_not_lt hge)).2
      have := h.shaped t
      rw [hnil] at this
      generalize phase t = p at this ht
      cases this
      cases ht
    exact hok u hl hlt hdepth t hcnt c ((h.shaped t).choosing ht) (by omega) hu
  · -- a thread that is being created is not in `cond_wait`
    rw [show s.code s.threadCnt = [] from (h.wf.queues.fresh _ (Nat.le_refl _)).2] at hshape
    cases hshape

/-! ## Whole runs -/

/-- The step of a thread that executes an instruction of its operation, or what
    lies on top of it. -/
theorem CondOk.exec (hok : settled s .run)
    (hcode : s.code s.current = i :: rest) (heff : Effect (s.pop rest) i y) :
    ∃ phase', (∀ t, Shaped assoc t (body (y.code t)) (phase' t)) ∧
      (i.background = true ∧ y.monitor (trackCalls s r .run) phase' = s.sync.monitor r phase ∨
        i.background = false ∧ (phase s.current = .other → phase' s.current = .other) ∧
          Monitor.Step assoc { s.sync.monitor r phase with rank := y.priority } s.current
            (y.monitor (trackCalls s r .run) phase')) := by
  cases hi : i.background with
  | false =>
    obtain ⟨p, hshape, hstay, hstep⟩ := h.follows hok hcode hi heff
    refine ⟨_, fun t => ?_, Or.inr ⟨rfl, by simpa using hstay, hstep⟩⟩
    by_cases ht : t = s.current
    · subst ht
      rwa [update_self]
    · rw [update_of_ne ht, heff.body_other h.wf ht]
      exact h.shaped t
  | true =>
    refine ⟨phase, fun t => ?_, Or.inl ⟨rfl, ?_⟩⟩
    · by_cases ht : t = s.current
      · subst ht
        have hshape := h.shaped s.current
        rw [hcode, show i :: rest = [i] ++ rest from rfl, body_append (by simpa using hi)] at hshape
        rwa [heff.background h.wf hi]
      · rw [heff.body_other h.wf ht]
        exact h.shaped t
    · have hne : ∀ w, i ≠ .semaUp (.waiter w) := by
        rintro w rfl
        cases hi
      have hplain : i.plain = true := by cases i <;> first | rfl | cases hi
      have hprio : y.priority = s.priority := heff.priority_eq (by cases i <;> first | rfl | cases hi)
      have hholder : y.holder = s.holder := heff.background_holder hi
      rw [trackCalls_run hcode hne, heff.plain_monitor hplain (h.wf.belongs_head hcode), hprio,
        hholder]
      rfl

/-- The current thread gets instructions, and its operation its phase. -/
theorem CondOk.shaped_push {l : List Instr} (hcur : Shaped assoc s.current (body (l ++ s.code s.current)) p)
    (t : Tid) :
    Shaped assoc t (body ((s.push l).code t)) (update phase s.current p t) := by
  by_cases ht : t = s.current
  · subst ht
    rw [update_self]
    rwa [show (s.push l).code s.current = _ from update_self ..]
  · rw [update_of_ne ht, show (s.push l).code t = s.code t from update_of_ne ht ..]
    exact h.shaped t

theorem CondOk.phase_nil (hcode : s.code s.current = []) :
    phase s.current = .other := by
  have hshape := h.shaped s.current
  rw [hcode] at hshape
  generalize phase s.current = p at hshape
  cases hshape
  rfl

/-- An operation on a condition is called. -/
theorem CondOk.call {l : List Instr} {x : Call} {d e : Bool} {y : Sync}
    (hcode : s.code s.current = []) (hholder : s.holder (assoc c) = some s.current)
    (hy : y = { (s.push l).sync with intr := b, inIntr := d, yieldOnReturn := e })
    (hshape : Shaped assoc s.current (body l) p)
    (hp : p = .enters c ∧ x = .wait ∨ p = .signals c false ∧ x = .signal ∨
      p = .broadcasts c ∧ x = .broadcast) :
    (∀ t, Shaped assoc t (body (y.code t)) (update phase s.current p t)) ∧
      Monitor.Step assoc (s.sync.monitor r phase) s.current
        (y.monitor (r.begin s x c) (update phase s.current p)) := by
  subst hy
  exact ⟨h.shaped_push (by rwa [hcode, List.append_nil]), .call c p x (h.phase_nil hcode) hp hholder⟩

end

/-- A call or an interrupt: an operation on a condition begins, or the threads
    stay as they are. -/
def Arrives (assoc : CondId → LockId) (s : State) (r : Calls)
    (phase : Tid → Phase Tid CondId LockId) (a : Label) (y : Sync) : Prop :=
  ∃ phase', (∀ t, Shaped assoc t (body (y.code t)) (phase' t)) ∧
    (y.monitor (trackCalls s r a) phase' = s.sync.monitor r phase ∨
      Monitor.Step assoc (s.sync.monitor r phase) s.current
          (y.monitor (trackCalls s r a) phase') ∧
        ((y.monitor (trackCalls s r a) phase').work s.current = 0 ∨
          ∃ c l, a = .call (.condBroadcast c l)))

theorem CondOk.arrival {a : Label} {l : List Instr} {d e : Bool} (h : CondOk assoc s r phase)
    (hheld : lockHeld assoc (s, r) a) (ha : Arrival s a l b d)
    (hy : y = { (s.push l).sync with intr := b, inIntr := d, yieldOnReturn := e }) :
    Arrives assoc s r phase a y := by
  -- nothing that belongs to a condition
  have hkeep : trackCalls s r a = r →
      Shaped assoc s.current (body (l ++ s.code s.current)) (phase s.current) →
      Arrives assoc s r phase a y := by
    intro hr hshape
    have hall := h.shaped_push hshape
    rw [update_eq_self] at hall
    refine ⟨phase, ?_, Or.inl ?_⟩
    · rw [hy]
      exact hall
    · rw [hr, hy]
      rfl
  cases ha with
  | timer hi =>
    refine hkeep rfl ?_
    rw [body_append (by simp [Instr.background])]
    exact h.shaped _
  | device ops hi =>
    refine hkeep rfl ?_
    rw [body_append]
    · exact h.shaped _
    · intro x hx
      rcases List.mem_append.mp hx with hx | hx
      · obtain ⟨op, -, rfl⟩ := List.mem_map.mp hx
        cases op <;> rfl
      · rw [List.mem_singleton.mp hx]
        rfl
  | call op hcode =>
    have hother := h.phase_nil hcode
    have hplain : trackCalls s r (.call op) = r → (∀ x ∈ op.code s.current, x.plain = true) →
        Arrives assoc s r phase (.call op) y := by
      intro hr hl
      refine hkeep hr ?_
      rw [hcode, List.append_nil, hother]
      exact .plain fun x hx => hl x (body_subset hx)
    cases op with
    | condWait c l =>
      obtain ⟨rfl, hholder⟩ := hheld
      obtain ⟨hs, hstep⟩ := h.call hcode hholder hy (.push c) (Or.inl ⟨rfl, rfl⟩)
      refine ⟨_, hs, Or.inr ⟨hstep, Or.inl ?_⟩⟩
      simp [Monitor.work, Sync.monitor]
    | condSignal c l =>
      obtain ⟨rfl, hholder⟩ := hheld
      obtain ⟨hs, hstep⟩ := h.call hcode hholder hy (.signal c false) (Or.inr (Or.inl ⟨rfl, rfl⟩))
      refine ⟨_, hs, Or.inr ⟨hstep, Or.inl ?_⟩⟩
      simp [Monitor.work, Sync.monitor]
    | condBroadcast c l =>
      obtain ⟨rfl, hholder⟩ := hheld
      obtain ⟨hs, hstep⟩ := h.call hcode hholder hy (.broadcast c) (Or.inr (Or.inr ⟨rfl, rfl⟩))
      exact ⟨_, hs, Or.inr ⟨hstep, Or.inr ⟨c, _, rfl⟩⟩⟩
    | _ => exact hplain rfl (by simp [Op.code])

/-- How much of `cond_broadcast` is left: others do not add to it, and every
    instruction of the thread itself takes something away. -/
structure Progress (s : State) (a : Label) (m m' : Monitor Tid CondId LockId) : Prop where
  kept : ∀ t, m'.work t ≤ m.work t ∨ t = s.current ∧ ∃ c l, a = .call (.condBroadcast c l)
  lost : ∀ i rest, a = .run → s.code s.current = i :: rest → i.background = false →
    m.work s.current ≠ 0 → m'.work s.current < m.work s.current

theorem CondOk.next {a : Label} (h : CondOk assoc s r phase) (hok : monitored assoc (s, r) a)
    (hn : next s a = some s') : ∃ phase', CondOk assoc s' (trackCalls s r a) phase' ∧
      Progress s a (s.sync.monitor r phase) (s'.sync.monitor (trackCalls s r a) phase') := by
  have hwf := h.wf.next hn
  have hlocks := h.locks.next h.wf hn
  rcases next_cases hn with ⟨l, b, d, e, ha, -, -, hy⟩ | ⟨i, rest, rfl, hcode, hexec⟩
  · obtain ⟨phase', hshape, heq | ⟨hstep, hwork⟩⟩ := h.arrival hok.1 ha hy
    · refine ⟨phase', ⟨hwf, hlocks, hshape, ?_, ?_, ?_⟩, ⟨fun t => ?_, fun i rest hrun => ?_⟩⟩
      · exact heq ▸ h.monitor
      · exact heq ▸ h.ordered
      · exact heq ▸ h.counted
      · exact Or.inl (by rw [heq])
      · subst hrun
        cases ha
    · refine ⟨phase', ⟨hwf, hlocks, hshape, h.monitor.step hstep, h.ordered.step h.monitor hstep,
        h.counted.step h.monitor hstep⟩, ⟨fun t => ?_, fun i rest hrun => ?_⟩⟩
      · by_cases ht : t = s.current
        · subst ht
          exact hwork.imp (by omega) fun hb => ⟨rfl, hb⟩
        · exact Or.inl (Nat.le_of_eq (h.monitor.work_other hstep ht))
      · subst hrun
        cases ha
  · have heff := exec_effect hexec
    have hrank : Monitor.Ordered { s.sync.monitor r phase with rank := s'.priority } :=
      h.ordered.rerank _ (fun t c ht => h.rank_kept hok.2 hcode heff ht) h.monitor
    have hmon : Monitor.Ok assoc { s.sync.monitor r phase with rank := s'.priority } :=
      h.monitor.ghost _ _ _ _
    have hcount : Monitor.Counted { s.sync.monitor r phase with rank := s'.priority } := h.counted
    obtain ⟨phase', hshape, ⟨hb, heq⟩ | ⟨hb, hstay, hstep⟩⟩ := h.exec hok.2 hcode heff
    · refine ⟨phase', ⟨hwf, hlocks, hshape, ?_, ?_, ?_⟩, ⟨fun t => ?_, fun j rest' _ hj hjb => ?_⟩⟩
      · exact heq ▸ h.monitor
      · exact heq ▸ h.ordered
      · exact heq ▸ h.counted
      · exact Or.inl (by rw [heq])
      · rw [hcode] at hj
        cases hj
        rw [hb] at hjb
        cases hjb
    · refine ⟨phase', ⟨hwf, hlocks, hshape, hmon.step hstep, hrank.step hmon hstep,
        hcount.step hmon hstep⟩, ⟨fun t => Or.inl ?_, fun j rest' _ hj hjb hw => ?_⟩⟩
      · by_cases ht : t = s.current
        · subst ht
          by_cases hw : (s.sync.monitor r phase).work s.current = 0
          · have hother := Monitor.work_zero hstep hstay hw
            omega
          · have hless : _ + 1 = (s.sync.monitor r phase).work s.current := hmon.work_step hstep hw
            omega
        · exact Nat.le_of_eq (hmon.work_other hstep ht)
      · have hless : _ + 1 = (s.sync.monitor r phase).work s.current := hmon.work_step hstep hw
        omega

theorem Initial.condOk (h : Initial s) :
    CondOk assoc s ⟨fun _ => none, fun _ => [], fun _ => []⟩ fun _ => .other := by
  refine ⟨h.wf, h.locksOk, fun t => .plain fun x hx => ?_, ?_, ?_, ?_⟩
  · have hx := body_subset hx
    rw [h.code] at hx
    simp only at hx
    split at hx
    · rw [List.mem_singleton.mp hx]
      rfl
    · split at hx
      · rcases List.mem_cons.mp hx with rfl | hx
        · rfl
        · rw [List.mem_singleton.mp hx]
          rfl
      · cases hx
  · constructor <;> simp [Sync.monitor, State.sync, h.condWaiters, h.waiters, Phase.signalled]
  · constructor <;> simp [Sync.monitor]
  · intro t
    constructor <;> simp [Sync.monitor, Phase.call, Monitor.tally]

theorem condOk_of_reaches (h : condTraced.Reaches (monitored assoc) (s, r)) :
    ∃ phase, CondOk assoc s r phase := by
  refine System.Reaches.invariant (S := condTraced)
    (I := fun p => ∃ phase, CondOk assoc p.1 p.2 phase) ?_ ?_ h
  · rintro ⟨s, r⟩ ⟨hs, hr⟩
    have hr : r = _ := hr
    subst hr
    exact ⟨_, Initial.condOk hs⟩
  · rintro p a p' ⟨phase, hp⟩ hok hn
    obtain ⟨s', hs', rfl⟩ := Option.map_eq_some_iff.mp hn
    obtain ⟨phase', hphase', -⟩ := hp.next hok hs'
    exact ⟨phase', hphase'⟩

/-! ## What callers see -/

/-- The instructions of `cond_signal` and `cond_broadcast`. -/
def Instr.signals : Instr → Bool
  | .condSignal .. | .condScan .. | .condRemove .. | .condBroadcast .. | .semaUp (.waiter _) => true
  | _ => false

/-- The thread is in `cond_wait`, has released the lock, and has not come back
    from `sema_down`. -/
def waitsSignal (s : State) (w : Tid) : Prop :=
  ∃ l, body (s.code w) = [.semaUp (.lock l), .semaDown (.waiter w), .acquire l] ∨
    body (s.code w) = [.semaDown (.waiter w), .acquire l] ∨
    body (s.code w) = [.semaRetry (.waiter w), .acquire l]

/-- The number of instructions of `cond_broadcast` a thread still has to
    execute. -/
def broadcastWork (s : State) (t : Tid) : Nat :=
  match body (s.code t) with
  | [.condBroadcast c _] => Monitor.loopWork (s.condWaiters c).length
  | [.condSignal c _, .condBroadcast _ _] =>
    (s.condWaiters c).length + 3 + Monitor.loopWork ((s.condWaiters c).length - 1)
  | [.condScan c _ ws, .condBroadcast _ _] =>
    ws.length + 3 + Monitor.loopWork ((s.condWaiters c).length - 1)
  | [.semaUp _, .condRemove c _, .condBroadcast _ _] =>
    2 + Monitor.loopWork ((s.condWaiters c).length - 1)
  | [.condRemove c _, .condBroadcast _ _] => 1 + Monitor.loopWork ((s.condWaiters c).length - 1)
  | _ => 0

theorem Shaped.work (h : Shaped assoc t (body (s.code t)) (phase t)) :
    broadcastWork s t = (s.sync.monitor r phase).work t := by
  simp only [broadcastWork, Monitor.work, Sync.monitor, State.sync]
  generalize body (s.code t) = l at h
  generalize phase t = p at h
  cases h with
  | plain hplain =>
    split <;> first | rfl | simp at hplain
  | signal c b | scan c max ws b | up c w b | remove c w b => cases b <;> rfl
  | _ => rfl

/-- What condition variables promise in a state of a run. -/
structure CondSound (assoc : CondId → LockId) (s : State) (r : Calls) : Prop where
  /-- No assertion fails in `cond_signal`, nor in what `cond_broadcast` does. -/
  total : ∀ i rest, s.code s.current = i :: rest → i.signals = true → next s .run ≠ none
  /-- The thread that is released is on the list and has the greatest priority
      there, and no other thread is released with it. -/
  chosen : ∀ w rest, s.code s.current = .semaUp (.waiter w) :: rest →
    ∃ c, w ∈ s.condWaiters c ∧ (∀ u ∈ s.condWaiters c, s.priority u ≤ s.priority w) ∧
      ∀ s', next s .run = some s' → s'.value (.waiter w) = 1 ∧ w ∉ s'.waiters (.waiter w) ∧
        ∀ u, u ≠ w → s'.value (.waiter u) = s.value (.waiter u)
  /-- When `cond_signal` has ended, it has released one thread of the list its
      caller found, if there was one. -/
  signal : ∀ t, r.last t = some .signal → (∀ x ∈ s.code t, x.signals = false) →
    r.before t = [] ∧ r.woken t = [] ∨ ∃ w ∈ r.before t, r.woken t = [w]
  /-- When `cond_broadcast` has ended, it has released all threads of the list,
      each once. -/
  broadcast : ∀ t, r.last t = some .broadcast → (∀ x ∈ s.code t, x.signals = false) →
    (r.before t).Perm (r.woken t) ∧ (r.woken t).Nodup
  /-- `cond_broadcast` ends: there is less to do after each of its instructions,
      and not more after any other step. -/
  ends : ∀ a s', monitored assoc (s, r) a → next s a = some s' →
    (∀ t, broadcastWork s' t ≤ broadcastWork s t ∨
      t = s.current ∧ ∃ c l, a = .call (.condBroadcast c l)) ∧
    ∀ i rest, a = .run → s.code s.current = i :: rest → i.background = false →
      broadcastWork s s.current ≠ 0 → broadcastWork s' s.current < broadcastWork s s.current
  /-- A thread that waits for a signal is on the list, or has been released and is
      not blocked any more. -/
  kept : ∀ w, waitsSignal s w →
    s.value (.waiter w) = 0 ∧ (∃ c, w ∈ s.condWaiters c) ∨
      s.value (.waiter w) = 1 ∧ w ∉ s.waiters (.waiter w)

theorem semaWake_ne_none {m : SemaId} (hblocked : ∀ t ∈ s.waiters m, s.status t = .blocked) :
    semaWake s m ≠ none := by
  by_cases hnil : s.waiters m = []
  · have hmax : Base.listMax (threadPriorityLess (s.setValue m ((s.value m + 1) % 2 ^ 32)))
        ((s.setValue m ((s.value m + 1) % 2 ^ 32)).waiters m) = none := by
      rw [State.setValue, hnil]
      rfl
    rw [semaWake, hmax]
    exact Option.some_ne_none _
  · obtain ⟨s', t, hw⟩ := semaWake_some hblocked hnil
    simp [hw]

theorem CondOk.total (h : CondOk assoc s r phase) (hcode : s.code s.current = i :: rest)
    (hi : i.signals = true) : Threads.next s .run ≠ none := by
  have hback : i.background = false := by cases i <;> first | rfl | cases hi
  have hshape := h.shaped s.current
  rw [hcode, body_cons_of_not hback] at hshape
  generalize hp : phase s.current = p at hshape
  have hnext : Threads.next s .run = Threads.exec (s.pop rest) i := by
    simp only [Threads.next, hcode]
    rfl
  rw [hnext]
  cases hshape with
  | plain hplain =>
    have := hplain i List.mem_cons_self
    cases i with
    | semaUp m => cases m <;> simp_all [Instr.signals]
    | _ => simp_all [Instr.signals]
  | signal c b =>
    have hsig : (phase s.current).signalled = some c := by
      rw [hp]
      rfl
    have hholder : s.holder (assoc c) = some s.current := h.monitor.signalled s.current c hsig
    simp only [Threads.exec, State.pop, hholder, if_true]
    split <;> simp
  | scan c max ws b =>
    obtain ⟨hmax, hws, hall⟩ := h.monitor.scans s.current c max ws b hp
    cases ws with
    | nil => simp [Threads.exec]
    | cons w ws =>
      -- the waiters are blocked, each on its own semaphore
      have hne : ∀ u ∈ s.condWaiters c, s.waiters (.waiter u) ≠ [] := fun u hu =>
        List.ne_nil_of_mem (of_decide_eq_true (hall (by simp) u hu))
      obtain ⟨a, as, ha⟩ := List.exists_cons_of_ne_nil (hne max hmax)
      obtain ⟨d, ds, hd⟩ := List.exists_cons_of_ne_nil (hne w (hws w List.mem_cons_self))
      simp [Threads.exec, State.pop, ha, hd]
  | up c w b =>
    simp only [Threads.exec, ne_eq, Option.map_eq_none_iff]
    exact semaWake_ne_none fun t ht => ((h.wf.queues.waiters _ t).mp ht).1
  | remove c w b => simp [Threads.exec]
  | broadcast c =>
    simp only [Threads.exec]
    split <;> simp
  | _ => cases hi

theorem CondOk.chosen (h : CondOk assoc s r phase)
    (hcode : s.code s.current = .semaUp (.waiter w) :: rest) :
    ∃ c, w ∈ s.condWaiters c ∧ (∀ u ∈ s.condWaiters c, s.priority u ≤ s.priority w) ∧
      ∀ s', Threads.next s .run = some s' → s'.value (.waiter w) = 1 ∧
        w ∉ s'.waiters (.waiter w) ∧ ∀ u, u ≠ w → s'.value (.waiter u) = s.value (.waiter u) := by
  have hshape := h.shaped s.current
  rw [hcode, body_cons_of_not rfl] at hshape
  generalize hp : phase s.current = p at hshape
  cases hshape with
  | plain hplain => exact absurd (hplain _ List.mem_cons_self) (by simp)
  | up c w b =>
    have hmem : w ∈ s.condWaiters c := h.monitor.ups s.current c w b hp
    refine ⟨c, hmem, h.ordered.ups s.current c w b hp, fun s' hn => ?_⟩
    have hzero : s.value (.waiter w) = 0 := by
      rcases h.monitor.listed c w hmem with ⟨-, hv, -⟩ | ⟨hrem, -⟩
      · exact hv
      · -- nobody else signals the condition
        obtain ⟨t, b', ht, hp'⟩ := h.monitor.removing_holder hrem
        have hsig : (phase s.current).signalled = some c := by
          rw [hp]
          rfl
        have hcur : s.holder (assoc c) = some s.current := h.monitor.signalled s.current c hsig
        obtain rfl : s.current = t := Option.some.inj (hcur.symm.trans ht)
        rw [show phase s.current = _ from hp'] at hp
        cases hp
    have hexec : Threads.exec (s.pop (.condRemove c w :: pass assoc c b)) (.semaUp (.waiter w)) =
        some s' := by
      simp only [Threads.next, hcode] at hn
      exact hn
    -- the value and the waiters of the semaphore after `sema_up`
    have hvalue : s'.value = update s.value (.waiter w)
        ((s.value (.waiter w) + 1) % 2 ^ 32) := by
      rcases (exec_effect hexec).semaUp_cases with ⟨-, hy⟩ | ⟨t, -, -, hy⟩
      · exact congrArg Sync.value hy
      · exact congrArg Sync.value hy
    have hwaiters : w ∉ s'.waiters (.waiter w) := by
      rcases (exec_effect hexec).semaUp_cases with ⟨hnil, hy⟩ | ⟨t, ht, -, hy⟩
      · rw [show s'.waiters = s.waiters from congrArg Sync.waiters hy,
          show s.waiters (.waiter w) = [] from hnil]
        exact List.not_mem_nil
      · obtain rfl : t = w := h.wf.waiter_eq ht
        rw [show s'.waiters = update s.waiters (.waiter t)
          ((s.waiters (.waiter t)).erase t) from congrArg Sync.waiters hy, update_self]
        exact (h.wf.queues.waitersNodup (.waiter t)).not_mem_erase
    refine ⟨?_, hwaiters, fun u hu => ?_⟩
    · rw [hvalue, update_self]
      omega
    · rw [hvalue, update_of_ne (by simpa using hu)]

/-- A thread with no instruction of `cond_signal` left is in neither of the two
    operations. -/
theorem Shaped.call_none {code : List Instr}
    (h : Shaped assoc t (body code) p) (hcode : ∀ x ∈ code, x.signals = false) : p.call = none := by
  have hbody : ∀ x ∈ body code, x.signals = false := fun x hx => hcode x (body_subset hx)
  generalize body code = l at h hbody
  cases h with
  | signal | scan | up | remove | broadcast =>
    exact absurd (hbody _ List.mem_cons_self) (by simp [Instr.signals])
  | _ => rfl

theorem CondOk.kept (h : CondOk assoc s r phase) (hw : waitsSignal s w) :
    s.value (.waiter w) = 0 ∧ (∃ c, w ∈ s.condWaiters c) ∨
      s.value (.waiter w) = 1 ∧ w ∉ s.waiters (.waiter w) := by
  obtain ⟨l, hp⟩ : ∃ l, phase w = .waits l := by
    have hshape := h.shaped w
    obtain ⟨l, hbody | hbody | hbody⟩ := hw
    all_goals
      rw [hbody] at hshape
      generalize phase w = p at hshape
      cases hshape with
      | plain hplain => exact absurd hplain (by simp)
      | _ => exact ⟨l, rfl⟩
  by_cases hlist : ∃ c, w ∈ s.condWaiters c
  · obtain ⟨c, hc⟩ := hlist
    rcases h.monitor.listed c w hc with ⟨-, hv, -⟩ | ⟨-, ⟨-, hv, hpk⟩ | hre⟩
    · exact Or.inl ⟨hv, c, hc⟩
    · exact Or.inr ⟨hv, of_decide_eq_false hpk⟩
    · rw [show phase w = _ from hre] at hp
      cases hp
  · obtain ⟨hv, hpk⟩ := h.monitor.unlisted w l hp (not_exists.mp hlist)
    exact Or.inr ⟨hv, of_decide_eq_false hpk⟩

/-- Where callers hold the lock of the condition, the waiters are blocked when
    they are signalled, and their priorities stay while they are compared,
    condition variables keep their promise in every state of every run. -/
theorem cond_sound (h : condTraced.Reaches (monitored assoc) (s, r)) : CondSound assoc s r := by
  obtain ⟨phase, hok⟩ := condOk_of_reaches h
  constructor
  case total => exact fun i rest hcode hi => hok.total hcode hi
  case chosen => exact fun w rest hcode => hok.chosen hcode
  case signal =>
    intro t hlast hcode
    exact (hok.counted t).signal ((hok.shaped t).call_none hcode) hlast
  case broadcast =>
    intro t hlast hcode
    have hperm := (hok.counted t).broadcast ((hok.shaped t).call_none hcode) hlast
    exact ⟨hperm, hperm.nodup_iff.mp ((hok.counted t).nodup)⟩
  case ends =>
    intro a s' hm hn
    obtain ⟨phase', hok', hprogress⟩ := hok.next hm hn
    have hwork : ∀ t, broadcastWork s t = (s.sync.monitor r phase).work t :=
      fun t => (hok.shaped t).work
    have hwork' : ∀ t, broadcastWork s' t = (s'.sync.monitor (trackCalls s r a) phase').work t :=
      fun t => (hok'.shaped t).work
    simp only [hwork, hwork']
    exact ⟨hprogress.kept, hprogress.lost⟩
  case kept => exact fun w hw => hok.kept hw

/-- Two threads of priority 32 and 33 wait, the initial thread signals, and the
    second one is released. -/
theorem cond_sound_two : ∃ s r, condTraced.Reaches (monitored fun _ => 5) (s, r) ∧
    s.code s.current = [.semaUp (.waiter 3), .condRemove 0 3] ∧ s.condWaiters 0 = [2, 3] ∧
    CondSound (fun _ => 5) s r := by
  obtain ⟨⟨s, r⟩, hs, hp⟩ := System.reaches_of_run (S := condTraced) (monitored fun _ => 5)
    (s := (boot, ⟨fun _ => none, fun _ => [], fun _ => []⟩)) ⟨boot_initial, rfl⟩
    (l := bootLabels ++ .call (.threadCreate 32) :: List.replicate 9 .run ++
      .call (.lockAcquire 5) :: List.replicate 2 .run ++
      .call (.condWait 0 5) :: List.replicate 5 .run ++
      .call (.threadCreate 33) :: List.replicate 9 .run ++
      .call (.lockAcquire 5) :: List.replicate 2 .run ++
      .call (.condWait 0 5) :: List.replicate 5 .run ++
      .call (.lockAcquire 5) :: List.replicate 2 .run ++
      .call (.condSignal 0 5) :: List.replicate 3 .run)
    (p := fun p => p.1.code p.1.current == [.semaUp (.waiter 3), .condRemove 0 3] &&
      p.1.condWaiters 0 == [2, 3]) (by decide +kernel)
  simp only [Bool.and_eq_true, beq_iff_eq] at hp
  exact ⟨s, r, hs, hp.1, hp.2, cond_sound hs⟩

/-- Thread 2 is blocked in `cond_wait`.  The initial thread calls `cond_wait` too,
    and its `lock_release` gives way to thread 3, which waits for the lock and
    signals: the comparison of the two waiters fails the assertion of
    `list_front`. -/
theorem cond_signal_fails : ∃ s r, condTraced.Reaches (lockHeld fun _ => 5) (s, r) ∧
    s.code s.current = [.condScan 0 2 [0]] ∧ s.condWaiters 0 = [2, 0] ∧
    s.waiters (.waiter 0) = [] ∧ next s .run = none := by
  obtain ⟨⟨s, r⟩, hs, hp⟩ := System.reaches_of_run (S := condTraced) (lockHeld fun _ => 5)
    (s := (boot, ⟨fun _ => none, fun _ => [], fun _ => []⟩)) ⟨boot_initial, rfl⟩
    (l := bootLabels ++ .call (.threadCreate 32) :: List.replicate 9 .run ++
      .call (.lockAcquire 5) :: List.replicate 2 .run ++
      .call (.condWait 0 5) :: List.replicate 5 .run ++
      .call (.lockAcquire 5) :: List.replicate 2 .run ++
      .call (.threadCreate 33) :: List.replicate 9 .run ++
      .call (.lockAcquire 5) :: List.replicate 5 .run ++
      .call (.condWait 0 5) :: List.replicate 6 .run ++
      .call (.condSignal 0 5) :: List.replicate 1 .run)
    (p := fun p => p.1.code p.1.current == [.condScan 0 2 [0]] && p.1.condWaiters 0 == [2, 0] &&
      p.1.waiters (.waiter 0) == [] && (next p.1 .run).isNone) (by decide +kernel)
  simp only [Bool.and_eq_true, beq_iff_eq, Option.isNone_iff_eq_none] at hp
  exact ⟨s, r, hs, hp.1.1.1, hp.1.1.2, hp.1.2, hp.2⟩

end Pintos.Threads
