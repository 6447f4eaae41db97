/-
  Pintos.Threads.Donation

  Priority donation.  `lock_acquire` puts the thread on the donor list of the
  holder and passes its priority on along the chain of holders;
  `thread_update_priority` computes a priority anew from the donor list.

  The two do not agree: a thread that still waits when a lock changes hands is on
  no donor list, so that the new holder loses its priority when it releases
  another lock or sets its own priority.  Where the new holder has the highest
  priority of those that wait, and the donor list stands for the threads that
  wait whenever it is used, donation is exact.
-/

import Pintos.Base.Inheritance
import Pintos.Threads.Donors

namespace Pintos.Threads

open Pintos.Base Function

variable {s s' : State} {i : Instr} {rest : List Instr} {y : Sync} {o : Option LockId} {a : Label}
  {depth : Nat} {l : LockId}

/-! ## Threads in `lock_acquire` -/

/-- The instructions of `lock_acquire` behind its beginning, and the loop of
    `thread_propagate_priority`. -/
@[simp] def Instr.acquires : Instr → Bool
  | .propagate _ _ | .lockDown _ | .lockRetry _ => true
  | _ => false

/-- The code of a thread and its `blocking_lock`. -/
inductive Locking : List Instr → Option LockId → Prop
  | free {code : List Instr} (h : ∀ x ∈ code, x.acquires = false) : Locking code none
  /-- In `thread_set_priority`. -/
  | own (x : Option LockId) (depth : Nat) {rest : List Instr} (h : ∀ x ∈ rest, x.acquires = false) :
    Locking (.propagate x depth :: rest) none
  | donating (x : Option LockId) (depth : Nat) (l : LockId) {rest : List Instr}
    (h : ∀ x ∈ rest, x.acquires = false) : Locking (.propagate x depth :: .lockDown l :: rest) (some l)
  | down (l : LockId) {rest : List Instr} (h : ∀ x ∈ rest, x.acquires = false) :
    Locking (.lockDown l :: rest) (some l)
  /-- The lock had no holder. -/
  | entering (l : LockId) {rest : List Instr} (h : ∀ x ∈ rest, x.acquires = false) :
    Locking (.lockDown l :: rest) none
  | retry (l : LockId) {rest : List Instr} (h : ∀ x ∈ rest, x.acquires = false) :
    Locking (.lockRetry l :: rest) (some l)

/-- The code of a thread that does not run: it is outside `lock_acquire`, or
    blocked in it or unblocked. -/
def resting (code : List Instr) : Prop :=
  (∀ x ∈ code, x.acquires = false) ∨
    ∃ l rest, code = .lockRetry l :: rest ∧ ∀ x ∈ rest, x.acquires = false

theorem Quiet.acquires {l : List Instr} {b : Option Bool} (h : Quiet s i l b) :
    (∀ x ∈ l, x.acquires = false) ∨
      i = .propagateOwn ∧ l = [.propagate (s.blockingLock s.current) 0, .intrOn] ∨
      ∃ k, i = .acquire k ∧ s.holder k = none ∧ l = [.lockDown k] := by
  cases h with
  | propagateOwn => exact Or.inr (Or.inl ⟨rfl, rfl⟩)
  | acquireFree k hk => exact Or.inr (Or.inr ⟨k, rfl, hk, rfl⟩)
  | _ => exact Or.inl (by simp)

theorem Locking.of {code code' : List Instr} {o' : Option LockId} (h : Locking code' o')
    (hcode : code = code') (ho : o = o') : Locking code o := by
  subst hcode ho
  exact h

theorem Locking.cons_free (h : Locking (i :: rest) o)
    (hi : i.acquires = false) : o = none ∧ ∀ x ∈ rest, x.acquires = false := by
  cases h with
  | free h => exact ⟨rfl, fun x hx => h x (List.mem_cons_of_mem _ hx)⟩
  | _ => cases hi

/-- Behind `sema_down` there is no other part of `lock_acquire`. -/
theorem Locking.behind_down (h : Locking (i :: rest) o) (hi : i = .lockDown l ∨ i = .lockRetry l) :
    (∀ x ∈ rest, x.acquires = false) ∧ ∀ k, o = some k → k = l := by
  rcases hi with rfl | rfl <;> cases h <;> simp_all

/-- The loop occurs once, and only `sema_down` comes behind it. -/
theorem Locking.behind_loop {x : Option LockId} {j : Instr}
    (h : Locking (.propagate x depth :: j :: rest) o) (hj : j.acquires = true) :
    ∃ l, j = .lockDown l ∧ o = some l := by
  cases h with
  | free h => cases h _ List.mem_cons_self
  | own _ _ h =>
    rw [h j List.mem_cons_self] at hj
    cases hj
  | donating _ _ l => exact ⟨l, rfl, rfl⟩

/-- What the current thread begins with after an instruction. -/
inductive Begins (s : State) (rest : List Instr) (y : Sync) : Instr → Prop
  | outside {i : Instr} (hcode : ∀ x ∈ y.code s.current, x.acquires = false)
    (hblock : y.blockingLock s.current = none) : Begins s rest y i
  | waits {i : Instr} (l : LockId) (hi : i = .lockDown l ∨ i = .lockRetry l)
    (hvalue : s.value (.lock l) = 0) (hcode : y.code s.current = .lockRetry l :: rest)
    (hblock : y.blockingLock = s.blockingLock) : Begins s rest y i
  /-- `thread_propagate_priority` is called by `thread_set_priority`. -/
  | own (hcode : y.code s.current = .propagate (s.blockingLock s.current) 0 :: .intrOn :: rest)
    (hblock : y.blockingLock = s.blockingLock) : Begins s rest y .propagateOwn
  | entering (l : LockId) (hholder : s.holder l = none) (hvalue : y.value = s.value)
    (hcode : y.code s.current = .lockDown l :: rest)
    (hblock : y.blockingLock = s.blockingLock) : Begins s rest y (.acquire l)
  | donating (l : LockId) (hcode : y.code s.current = .propagate (some l) 0 :: .lockDown l :: rest)
    (hblock : y.blockingLock s.current = some l) : Begins s rest y (.acquire l)
  | ends (x : Option LockId) (depth : Nat) (hcode : y.code s.current = rest)
    (hblock : y.blockingLock = s.blockingLock) : Begins s rest y (.propagate x depth)
  | goesOn (l : LockId) (depth : Nat) (h : Tid) (hdepth : depth < DONATION_DEPTH)
    (hholder : s.holder l = some h)
    (hcode : y.code s.current = .propagate (s.blockingLock h) (depth + 1) :: rest)
    (hblock : y.blockingLock = s.blockingLock) (hkept : y.holder = s.holder) :
    Begins s rest y (.propagate (some l) depth)

theorem Effect.begins (h : Effect (s.pop rest) i y)
    (hl : Locking (i :: rest) (s.blockingLock s.current)) (hfresh : s.current ≠ s.threadCnt) :
    Begins s rest y i := by
  cases hi : i.acquires with
  | true =>
    cases h with
    | quiet h =>
      cases h with
      | propagateEnd x depth => exact .ends x depth (State.pop_push_current s rest []) rfl
      | _ => cases hi
    | propagate l depth h hdepth hholder =>
      exact .goesOn l depth h hdepth hholder (State.pop_push_current s rest [_]) rfl rfl
    | lockWait l hi' hv => exact .waits l hi' hv (State.pop_push_current s rest [_]) rfl
    | lockTake l hi' =>
      refine .outside (fun x hx => (hl.behind_down hi').1 x ?_) (update_self ..)
      have hx : x ∈ (s.pop rest).code s.current := hx
      rwa [State.pop_current] at hx
    | wait m hi' | take m hi' | upNone m hi' => rcases hi' with rfl | rfl <;> cases hi
    | up m t l hi' => rcases hi' with ⟨rfl, -⟩ | ⟨rfl, -⟩ <;> cases hi
    | _ => cases hi
  | false =>
    obtain ⟨hnone, hrest⟩ := hl.cons_free hi
    have hpush : ∀ l : List Instr, (∀ x ∈ l, x.acquires = false) →
        ∀ x ∈ ((s.pop rest).push l).code s.current, x.acquires = false := by
      intro l hl x hx
      rw [State.pop_push_current] at hx
      exact (List.mem_append.mp hx).elim (hl x) (hrest x)
    have hpop : ∀ x ∈ (s.pop rest).code s.current, x.acquires = false := by
      rw [State.pop_current]
      exact hrest
    cases h with
    | quiet h =>
      rcases h.acquires with hl | ⟨rfl, rfl⟩ | ⟨k, rfl, hk, rfl⟩
      · exact .outside (hpush _ hl) hnone
      · exact .own (State.pop_push_current s rest [_, _]) rfl
      · exact .entering k hk rfl (State.pop_push_current s rest [_]) rfl
    | create p =>
      refine .outside (fun x hx => ?_) ((update_of_ne hfresh ..).trans hnone)
      have hx : x ∈ ((newThread (s.pop rest) p).push [.acquire tidLock, .release tidLock,
          .createUnblock s.threadCnt, .createTest s.threadCnt]).code s.current := hx
      rw [newThread_push_current hfresh] at hx
      rcases List.mem_append.mp hx with hx | hx
      · simp only [List.mem_cons, List.not_mem_nil, or_false] at hx
        rcases hx with rfl | rfl | rfl | rfl <;> rfl
      · exact hrest x hx
    | donate l h hholder =>
      refine .donating l ?_ (update_self ..)
      show ((Threads.donate (s.pop rest) l h).push [.propagate (some l) 0, .lockDown l]).code
        s.current = _
      simp [State.push, Threads.donate, State.pop]
    | up m t l hi' => exact .outside (hpush _ (by grind [Instr.acquires])) hnone
    | lockWait l hi' | lockTake l hi' => rcases hi' with rfl | rfl <;> cases hi
    | timerTick | intrYield | wait | tryAcquire | release =>
      exact .outside (hpush _ (by simp)) hnone
    | propagate => cases hi
    | _ => exact .outside hpop hnone

/-- An instruction keeps the shape of the code of its thread. -/
theorem Begins.locking (h : Begins s rest y i)
    (hl : Locking (i :: rest) (s.blockingLock s.current))
    (henter : ∀ l, i = .lockDown l → s.blockingLock s.current = none → s.value (.lock l) ≠ 0) :
    Locking (y.code s.current) (y.blockingLock s.current) := by
  cases h with
  | outside hcode hblock => exact .of (.free hcode) rfl hblock
  | waits l hi hvalue hcode hblock =>
    rw [hcode, hblock]
    generalize s.blockingLock s.current = o at hl henter
    rcases hi with rfl | rfl
    · cases hl with
      | free hf => cases hf _ List.mem_cons_self
      | entering => exact absurd hvalue (henter l rfl rfl)
      | down _ hrest => exact .retry l hrest
    · cases hl with
      | free hf => cases hf _ List.mem_cons_self
      | retry _ hrest => exact .retry l hrest
  | own hcode hblock =>
    obtain ⟨hnone, hrest⟩ := hl.cons_free rfl
    exact .of (.own _ _ (by simpa using hrest)) hcode ((congrFun hblock _).trans hnone)
  | entering l hholder hvalue hcode hblock =>
    obtain ⟨hnone, hrest⟩ := hl.cons_free rfl
    exact .of (.entering l hrest) hcode ((congrFun hblock _).trans hnone)
  | donating l hcode hblock => exact .of (.donating _ _ l (hl.cons_free rfl).2) hcode hblock
  | ends x depth hcode hblock =>
    rw [hcode, hblock]
    generalize s.blockingLock s.current = o at hl
    cases hl with
    | free hf => cases hf _ List.mem_cons_self
    | own _ _ hrest => exact .free hrest
    | donating _ _ l hrest => exact .down l hrest
  | goesOn l depth h hdepth hholder hcode hblock =>
    rw [hcode, hblock]
    generalize s.blockingLock s.current = o at hl
    cases hl with
    | free hf => cases hf _ List.mem_cons_self
    | own _ _ hrest => exact .own _ _ hrest
    | donating _ _ l hrest => exact .donating _ _ l hrest

theorem Effect.blockingLock_other {t : Tid} (h : Effect (s.pop rest) i y) (ht : t ≠ s.current) :
    y.blockingLock t = s.blockingLock t ∨ t = s.threadCnt ∧ y.blockingLock t = none := by
  cases h with
  | create p =>
    by_cases htc : t = s.threadCnt
    · subst htc
      exact Or.inr ⟨rfl, update_self ..⟩
    · exact Or.inl (update_of_ne htc ..)
  | donate | lockTake => exact Or.inl (update_of_ne ht ..)
  | _ => exact Or.inl rfl

/-! ## Chains -/

/-- The thread at the end of `n` links of the chain that begins at `t`: each link
    goes to the holder of the lock a thread waits for. -/
def State.follow (s : State) : Nat → Tid → Option Tid
  | 0, t => some t
  | n + 1, t => (s.follow n t).bind fun u => (s.blockingLock u).bind s.holder

theorem State.follow_congr (hblock : s'.blockingLock = s.blockingLock)
    (hholder : s'.holder = s.holder) (n : Nat) (t : Tid) : s'.follow n t = s.follow n t := by
  induction n with
  | zero => rfl
  | succ n ih => simp only [State.follow, ih, hblock, hholder]

/-- Chains have at most `DONATION_DEPTH` links. -/
def chainsShort (s : State) : Prop :=
  ∀ t < s.threadCnt, s.follow (DONATION_DEPTH + 1) t = none

/-- What the code of the threads says about `lock_acquire`. -/
structure LockingOk (s : State) : Prop where
  shape : ∀ t, Locking (s.code t) (s.blockingLock t)
  others : ∀ t, t ≠ s.current → resting (s.code t)
  /-- A thread that found no holder takes the lock at once. -/
  entering : ∀ l rest, s.code s.current = .lockDown l :: rest →
    s.blockingLock s.current = none → s.value (.lock l) ≠ 0
  /-- `thread_propagate_priority` follows the chain. -/
  chain : ∀ x depth rest, s.code s.current = .propagate x depth :: rest →
    depth ≤ DONATION_DEPTH ∧ ∃ u, s.follow depth s.current = some u ∧ s.blockingLock u = x
  created : ∀ l t, s.holder l = some t → t < s.threadCnt

/-! ## The condition -/

/-- If thread `w` waits for a lock the current thread keeps, its priority is at
    most the original priority of the current thread or the priority of a donor
    it keeps; `o` is the lock that is released. -/
def Stands (s : State) (o : Option LockId) (w : Tid) : Prop :=
  (s.blockingLock w).bind s.holder = some s.current → s.blockingLock w ≠ o →
    s.priority w ≤ s.originalPriority s.current ∨
      ∃ d ∈ s.donorThreads s.current, (o = none ∨ s.blockingLock d ≠ o) ∧
        s.priority w ≤ s.priority d

def Covered (s : State) (o : Option LockId) : Prop := ∀ w < s.threadCnt, Stands s o w

/-- No other thread that waits for the lock has a higher priority. -/
def Foremost (s : State) (l : LockId) : Prop :=
  ∀ w < s.threadCnt, w ≠ s.current → s.blockingLock w = some l →
    s.priority w ≤ s.priority s.current

/-- A thread that gets a lock has the highest priority of those that wait for it,
    the donor list stands for the threads that wait when
    `thread_update_priority` uses it, and `lock_acquire` does not find a lock
    without a holder and with its semaphore taken. -/
def inherited (s : State) : Label → Prop
  | .run =>
    match s.code s.current with
    | .acquire l :: _ => s.holder l = none → s.value (.lock l) ≠ 0
    | .lockDown l :: _ | .lockRetry l :: _ => s.value (.lock l) ≠ 0 → Foremost s l
    | .trySet l :: _ => Foremost s l
    | .release l :: _ => Covered s (some l)
    | .updatePriority :: _ => Covered s none
    | _ => True
  | _ => True

def donating (s : State) (a : Label) : Prop := chainsShort s ∧ inherited s a

instance (s : State) : Decidable (chainsShort s) :=
  inferInstanceAs (Decidable (∀ t < s.threadCnt, _))

instance (s : State) (o : Option LockId) (w : Tid) : Decidable (Stands s o w) :=
  inferInstanceAs (Decidable (_ → _ → _))

instance (s : State) (o : Option LockId) : Decidable (Covered s o) :=
  inferInstanceAs (Decidable (∀ w < s.threadCnt, _))

instance (s : State) (l : LockId) : Decidable (Foremost s l) :=
  inferInstanceAs (Decidable (∀ w < s.threadCnt, _))

instance (s : State) (a : Label) : Decidable (inherited s a) := by
  cases a with
  | run =>
    delta inherited
    generalize s.code s.current = code
    cases code with
    | nil => exact isTrue trivial
    | cons i rest => cases i <;> dsimp only <;> infer_instance
  | _ => exact isTrue trivial

instance (s : State) (a : Label) : Decidable (donating s a) := inferInstanceAs (Decidable (_ ∧ _))

/-! ## The code of the threads -/

theorem next_threadCnt (hn : next s a = some s') : s.threadCnt ≤ s'.threadCnt := by
  cases a with
  | run =>
    simp only [next] at hn
    split at hn
    · cases hn
    · rename_i i rest hcode
      exact exec_threadCnt (s := s.pop rest) hn
  | call op =>
    simp only [next] at hn
    split at hn <;> cases hn
    exact le_rfl
  | timer | device l =>
    simp only [next, interrupt] at hn
    split at hn <;> cases hn
    exact le_rfl

theorem Wf.current_lt (hwf : Wf s) : s.current < s.threadCnt := by
  by_contra hge
  have hdying := (hwf.queues.fresh s.current (Nat.le_of_not_lt hge)).1
  rw [show s.queues.status s.current = .running from hwf.queues.running] at hdying
  cases hdying

/-- A resting thread does not begin with the loop, nor with `sema_down`. -/
theorem resting.head {code : List Instr} (h : resting code) {x : Instr} {rest : List Instr}
    (hcode : code = x :: rest) : (∀ k depth, x ≠ .propagate k depth) ∧ ∀ l, x ≠ .lockDown l := by
  subst hcode
  rcases h with h | ⟨l, rest', heq, -⟩
  · have hx := h x List.mem_cons_self
    constructor
    · rintro k depth rfl
      cases hx
    · rintro l rfl
      cases hx
  · cases heq
    exact ⟨by simp, by simp⟩

section

variable (h : LockingOk s) (hwf : Wf s) (hcode : s.code s.current = i :: rest)

include h hwf hcode

omit hwf in
theorem LockingOk.current_shape : Locking (i :: rest) (s.blockingLock s.current) :=
  hcode ▸ h.shape s.current

theorem LockingOk.begins (heff : Effect (s.pop rest) i y) : Begins s rest y i :=
  heff.begins (h.current_shape hcode) hwf.queues.current_ne_fresh

theorem LockingOk.shape_exec
    (heff : Effect (s.pop rest) i y) (t : Tid) : Locking (y.code t) (y.blockingLock t) := by
  by_cases ht : t = s.current
  · subst ht
    refine (h.begins hwf hcode heff).locking (h.current_shape hcode) ?_
    rintro l rfl hnone
    exact h.entering l rest hcode hnone
  · have hfresh : t = s.threadCnt → s.blockingLock t = none := by
      rintro rfl
      have hshape := h.shape s.threadCnt
      rw [show s.code s.threadCnt = [] from (hwf.queues.fresh _ le_rfl).2] at hshape
      generalize s.blockingLock s.threadCnt = o at hshape
      cases hshape
      rfl
    have hblock : y.blockingLock t = s.blockingLock t := by
      rcases heff.blockingLock_other ht with hb | ⟨hb, hb'⟩
      · exact hb
      · rw [hb', hfresh hb]
    rcases heff.code_other ht with hc | ⟨hc, hc'⟩
    · exact .of (h.shape t) hc hblock
    · exact .of (.free (by simp)) hc' (hblock.trans (hfresh hc))

theorem LockingOk.others_exec (hn : exec (s.pop rest) i = some s') {t : Tid}
    (ht : t ≠ s'.current) : resting (s'.code t) := by
  have heff := exec_effect hn
  by_cases htc : t = s.current
  · subst htc
    have hsw : i.switches = true := by
      rcases exec_current hn with hc | ⟨hsw, -⟩
      · exact absurd hc.symm ht
      · exact hsw
    cases h.begins hwf hcode heff with
    | outside hfree => exact Or.inl hfree
    | waits l hi hvalue hc hblock =>
      exact Or.inr ⟨l, rest, hc, ((h.current_shape hcode).behind_down hi).1⟩
    | _ => cases hsw
  · rcases heff.code_other htc with hc | ⟨-, hc⟩
    · rw [show s'.code t = s.code t from hc]
      exact h.others t htc
    · rw [show s'.code t = [.intrOn] from hc]
      exact Or.inl (by simp)

end

/-- A thread that begins with the loop or with `sema_down` was current before. -/
theorem LockingOk.current_eq (h : LockingOk s) (hn : exec (s.pop rest) i = some s') {x : Instr}
    {rest' : List Instr} (hx : s'.code s'.current = x :: rest')
    (hxs : (∃ k depth, x = .propagate k depth) ∨ ∃ l, x = .lockDown l) :
    s'.current = s.current := by
  by_contra hne
  have hrest : resting (s'.code s'.current) := by
    rcases (exec_effect hn).code_other hne with hc | ⟨-, hc⟩
    · rw [show s'.code s'.current = s.code s'.current from hc]
      exact h.others _ hne
    · rw [show s'.code s'.current = [.intrOn] from hc]
      exact Or.inl (by simp)
  obtain ⟨h1, h2⟩ := hrest.head hx
  rcases hxs with ⟨k, depth, rfl⟩ | ⟨l, rfl⟩
  · exact h1 k depth rfl
  · exact h2 l rfl

theorem LockingOk.exec (h : LockingOk s) (hwf : Wf s) (hok : inherited s .run)
    (hcode : s.code s.current = i :: rest) (hn : exec (s.pop rest) i = some s') : LockingOk s' := by
  have heff := exec_effect hn
  have hbegins := h.begins hwf hcode heff
  refine ⟨h.shape_exec hwf hcode heff, fun t ht => h.others_exec hwf hcode hn ht, ?_, ?_, ?_⟩
  · intro l rest' hl hnone
    have hc := h.current_eq hn hl (Or.inr ⟨l, rfl⟩)
    rw [hc] at hl hnone
    cases hbegins with
    | outside hfree => cases hfree _ (hl ▸ List.mem_cons_self)
    | waits _ _ _ hcode' | own hcode' | donating _ hcode' | goesOn _ _ _ _ _ hcode' =>
      cases hl.symm.trans hcode'
    | entering l' hholder hvalue hcode' =>
      cases hl.symm.trans hcode'
      simp only [inherited, hcode] at hok
      rw [show s'.value = s.value from hvalue]
      exact hok hholder
    | ends x depth hcode' hblock =>
      -- a thread behind the loop has a `blocking_lock`
      have hrest : rest = .lockDown l :: rest' := hcode'.symm.trans hl
      obtain ⟨k, -, hk⟩ := (hrest ▸ h.current_shape hcode).behind_loop rfl
      cases hnone.symm.trans ((congrFun hblock _).trans hk)
  · intro x depth rest' hl
    have hc := h.current_eq hn hl (Or.inl ⟨x, depth, rfl⟩)
    rw [hc] at hl ⊢
    cases hbegins with
    | outside hfree => cases hfree _ (hl ▸ List.mem_cons_self)
    | own hcode' hblock =>
      cases hl.symm.trans hcode'
      exact ⟨Nat.zero_le _, s.current, rfl, congrFun hblock s.current⟩
    | waits _ _ _ hcode' | entering _ _ _ hcode' => cases hl.symm.trans hcode'
    | donating l' hcode' hblock =>
      cases hl.symm.trans hcode'
      exact ⟨Nat.zero_le _, s.current, rfl, hblock⟩
    | ends x' depth' hcode' hblock =>
      have hrest : rest = .propagate x depth :: rest' := hcode'.symm.trans hl
      obtain ⟨k, hk, -⟩ := (hrest ▸ h.current_shape hcode).behind_loop rfl
      cases hk
    | goesOn l' depth' h' hdepth hholder hcode' hblock hkept =>
      cases hl.symm.trans hcode'
      obtain ⟨-, u, hu, hub⟩ := h.chain _ _ _ hcode
      refine ⟨hdepth, h', ?_, congrFun hblock h'⟩
      rw [State.follow_congr hblock hkept]
      simp only [State.follow, hu, Option.bind_some, hub, hholder]
  · intro l t ht
    have hcnt : s.threadCnt ≤ s'.threadCnt := exec_threadCnt (s := s.pop rest) hn
    rcases heff.holder ht with hh | ⟨rfl, -⟩
    · exact Nat.lt_of_lt_of_le (h.created l t hh) hcnt
    · exact Nat.lt_of_lt_of_le hwf.current_lt hcnt

theorem Arrival.free {l : List Instr} {b c : Bool} (h : Arrival s a l b c) :
    l ≠ [] ∧ ∀ x ∈ l, x.acquires = false := by
  cases h with
  | call op => cases op <;> simp [Op.code]
  | timer => simp
  | device ops =>
    refine ⟨by simp, fun x hx => ?_⟩
    rcases List.mem_append.mp hx with hx | hx
    · obtain ⟨op, -, rfl⟩ := List.mem_map.mp hx
      cases op <;> rfl
    · rw [List.mem_singleton.mp hx]
      rfl

/-- No call and no interrupt comes inside `lock_acquire`. -/
theorem LockingOk.arrival_free (h : LockingOk s) (hm : Masked s) {l : List Instr}
    {b c : Bool} (ha : Arrival s a l b c) :
    s.blockingLock s.current = none ∧ ∀ x ∈ s.code s.current, x.acquires = false := by
  have hoff : off (s.code s.current) = false := by
    cases ha with
    | call op hnil =>
      rw [hnil]
      rfl
    | timer hi => exact hm.off hi
    | device l hi => exact hm.off hi
  have hshape := h.shape s.current
  generalize s.code s.current = code at hshape hoff
  generalize s.blockingLock s.current = o at hshape
  cases hshape with
  | free hf => exact ⟨rfl, hf⟩
  | _ => cases hoff

theorem State.code_of_sync (hy : s'.sync = y) (t : Tid) : s'.code t = y.code t :=
  congrFun (congrArg Sync.code hy) t

theorem LockingOk.next (h : LockingOk s) (hwf : Wf s) (hm : Masked s)
    (hok : inherited s a) (hn : next s a = some s') : LockingOk s' := by
  rcases next_cases hn with ⟨l, b, c, d, harr, hc, -, hs'⟩ | ⟨i, rest, rfl, hcode, hn⟩
  · obtain ⟨hnone, hfree⟩ := h.arrival_free hm harr
    obtain ⟨hne, hl⟩ := harr.free
    have hcur : s'.code s.current = l ++ s.code s.current :=
      (State.code_of_sync hs' _).trans (update_self ..)
    have hother : ∀ t, t ≠ s.current → s'.code t = s.code t := fun t ht =>
      (State.code_of_sync hs' t).trans (update_of_ne ht ..)
    have hblock : s'.blockingLock = s.blockingLock := congrArg Sync.blockingLock hs'
    have hholder : s'.holder = s.holder := congrArg Sync.holder hs'
    have hall : ∀ x ∈ s'.code s.current, x.acquires = false := by
      rw [hcur]
      exact fun x hx => (List.mem_append.mp hx).elim (hl x) (hfree x)
    refine ⟨fun t => ?_, fun t ht => ?_, fun l' rest' hl' => ?_, fun x depth rest' hl' => ?_,
      fun l' t ht => ?_⟩
    · by_cases ht : t = s.current
      · subst ht
        exact Locking.of (.free hall) rfl ((congrFun hblock _).trans hnone)
      · exact Locking.of (h.shape t) (hother t ht) (congrFun hblock t)
    · rw [hc] at ht
      rw [hother t ht]
      exact h.others t ht
    · rw [hc] at hl'
      cases hall _ (hl' ▸ List.mem_cons_self)
    · rw [hc] at hl'
      cases hall _ (hl' ▸ List.mem_cons_self)
    · rw [hholder] at ht
      exact Nat.lt_of_lt_of_le (h.created l' t ht) (next_threadCnt hn)
  · exact h.exec hwf hok hcode hn

theorem Initial.lockingOk (h : Initial s) : LockingOk s := by
  have hfree : ∀ t, ∀ x ∈ s.code t, x.acquires = false := by
    intro t x hx
    rw [h.code] at hx
    simp only at hx
    split at hx
    · rw [List.mem_singleton.mp hx]
      rfl
    · split at hx
      · rcases List.mem_cons.mp hx with rfl | hx
        · rfl
        · rw [List.mem_singleton.mp hx]
          rfl
      · cases hx
  refine ⟨fun t => ?_, fun t _ => Or.inl (hfree t), fun l rest hl => ?_, fun x depth rest hl => ?_,
    fun l t ht => ?_⟩
  · rw [h.blockingLock]
    exact .free (hfree t)
  · cases hfree _ _ (hl ▸ List.mem_cons_self)
  · cases hfree _ _ (hl ▸ List.mem_cons_self)
  · rw [h.holder] at ht
    cases ht

/-! ## Priorities -/

/-- `thread_set_priority` has been called and has not computed the priority. -/
def stale (s : State) (t : Tid) : Prop := .updatePriority ∈ s.code t

/-- Where the priority of the current thread has come to. -/
def State.passing (s : State) : Option (Tid × Tid) :=
  match s.code s.current with
  | .propagate _ depth :: _ => (s.follow depth s.current).map fun u => (s.current, u)
  | _ => none

def State.inherit (s : State) : Inherit Tid LockId where
  rank := s.priority
  own := s.originalPriority
  waits := s.blockingLock
  holder := s.holder
  passing := s.passing

theorem State.passing_none (h : ∀ x depth rest, s.code s.current ≠ .propagate x depth :: rest) :
    s.passing = none := by
  unfold State.passing
  split
  · rename_i x depth rest hcode
    exact absurd hcode (h x depth rest)
  · rfl

theorem State.passing_some {x : Option LockId} {u : Tid}
    (hcode : s.code s.current = .propagate x depth :: rest) (hu : s.follow depth s.current = some u) :
    s.passing = some (s.current, u) := by
  simp only [State.passing, hcode, hu, Option.map_some]

/-- The code in which `original_priority` is set: the priority is computed
    afterwards. -/
def sets : List Instr → Prop
  | [] => True
  | i :: l => sets l ∧ ∀ p, i = .setOriginal p → .updatePriority ∈ l

theorem sets_append {l code : List Instr} (hcode : sets code) (hl : ∀ x ∈ l, ∀ p, x ≠ .setOriginal p) :
    sets (l ++ code) := by
  induction l with
  | nil => exact hcode
  | cons x l ih =>
    refine ⟨ih fun z hz => hl z (List.mem_cons_of_mem _ hz), fun p hp => ?_⟩
    exact absurd hp (hl x List.mem_cons_self p)

theorem Pushes.no_set {l : List Instr} (h : Pushes s i l) : ∀ x ∈ l, ∀ p, x ≠ .setOriginal p := by
  cases h with
  | quiet h => cases h <;> simp
  | _ => simp

theorem sets_next (hwf : Wf s) (h : ∀ t, sets (s.code t)) (hn : next s a = some s')
    (t : Tid) : sets (s'.code t) := by
  rcases next_cases hn with ⟨l, b, c, d, harr, hc, -, hs'⟩ | ⟨i, rest, -, hcode, hn⟩
  · by_cases ht : t = s.current
    · subst ht
      rw [show s'.code s.current = l ++ s.code s.current from
        (State.code_of_sync hs' _).trans (update_self ..)]
      cases harr with
      | call op hnil =>
        rw [hnil, List.append_nil]
        cases op <;> simp [Op.code, sets]
      | timer => exact sets_append (h _) (by simp)
      | device ops =>
        refine sets_append (h _) fun x hx p => ?_
        rcases List.mem_append.mp hx with hx | hx
        · obtain ⟨op, -, rfl⟩ := List.mem_map.mp hx
          cases op <;> simp [HandlerOp.instr]
        · simp [List.mem_singleton.mp hx]
    · rw [show s'.code t = s.code t from
        (State.code_of_sync hs' t).trans (update_of_ne ht ..)]
      exact h t
  · have heff := exec_effect hn
    by_cases ht : t = s.current
    · subst ht
      have hrest := h s.current
      rw [hcode] at hrest
      obtain ⟨l, hl, hl'⟩ := heff.pushes hwf.queues.current_ne_fresh
      rw [show s'.code s.current = l ++ rest from hl']
      exact sets_append hrest.1 hl.no_set
    · rcases heff.code_other ht with hc | ⟨-, hc⟩
      · rw [show s'.code t = s.code t from hc]
        exact h t
      · rw [show s'.code t = [.intrOn] from hc]
        exact ⟨trivial, by simp⟩

/-- A thread that has to compute its priority still has to after a step, unless
    that was it. -/
theorem stale_exec {t : Tid} (hwf : Wf s) (hcode : s.code s.current = i :: rest)
    (hn : exec (s.pop rest) i = some s') (ht : t ≠ s.current ∨ i ≠ .updatePriority)
    (h : stale s t) : stale s' t := by
  have heff := exec_effect hn
  by_cases htc : t = s.current
  · subst htc
    obtain ⟨l, -, hl⟩ := heff.pushes hwf.queues.current_ne_fresh
    have hi := ht.resolve_left (by simp)
    have hmem : Instr.updatePriority ∈ rest := by
      rw [stale, hcode] at h
      exact (List.mem_cons.mp h).resolve_left (Ne.symm hi)
    show _ ∈ s'.code s.current
    rw [show s'.code s.current = l ++ rest from hl]
    exact List.mem_append_right l hmem
  · rcases heff.code_other htc with hc | ⟨hc, -⟩
    · show _ ∈ s'.code t
      rw [show s'.code t = s.code t from hc]
      exact h
    · subst hc
      rw [stale, show s.code s.threadCnt = [] from (hwf.queues.fresh _ le_rfl).2] at h
      cases h

theorem State.inherit_eq {o : Option (Tid × Tid)} (hy : s'.sync = y) (hp : s'.passing = o) :
    s'.inherit = ⟨y.priority, y.originalPriority, y.blockingLock, y.holder, o⟩ := by
  subst hy hp
  rfl

/-! ## Donation along runs -/

/-- The invariant of donation. -/
structure DonationOk (s : State) : Prop where
  wf : Wf s
  masked : Masked s
  locks : LocksOk s.sync
  donors : DonorsOk s
  locking : LockingOk s
  sets : ∀ t, sets (s.code t)
  inherit : s.inherit.Ok (stale s)

/-- Nothing is passed on outside the loop. -/
theorem passing_before (hcode : s.code s.current = i :: rest)
    (hi : ∀ x depth, i ≠ .propagate x depth) : s.passing = none := by
  refine State.passing_none fun x depth rest' hc => ?_
  rw [hcode] at hc
  cases hc
  exact hi x depth rfl

section

variable (h : DonationOk s) (hcode : s.code s.current = i :: rest)
  (hn : exec (s.pop rest) i = some s')

include h hcode hn

omit hcode in
theorem DonationOk.passing_after (hy : ∀ x depth rest', s'.code s.current ≠ .propagate x depth :: rest') :
    s'.passing = none := by
  refine State.passing_none fun x depth rest' hc => ?_
  have heq := h.locking.current_eq hn hc (Or.inl ⟨x, depth, rfl⟩)
  rw [heq] at hc
  exact hy x depth rest' hc

theorem DonationOk.kept {m : Inherit Tid LockId} (hu : i ≠ .updatePriority)
    (hok : m.Ok (stale s)) : m.Ok (stale s') :=
  hok.mono fun _ ht => stale_exec h.wf hcode hn (Or.inr hu) ht

/-- An instruction that changes neither priorities nor locks. -/
theorem DonationOk.same (hi : ∀ x depth, i ≠ .propagate x depth) (hu : i ≠ .updatePriority)
    (hy : ∀ x depth rest', s'.code s.current ≠ .propagate x depth :: rest')
    (hprio : s'.priority = s.priority) (horig : s'.originalPriority = s.originalPriority)
    (hblock : s'.blockingLock = s.blockingLock) (hholder : s'.holder = s.holder) :
    s'.inherit.Ok (stale s') := by
  have heq : s'.inherit = s.inherit := by
    simp only [State.inherit, hprio, horig, hblock, hholder, h.passing_after hn hy,
      passing_before hcode hi]
  rw [heq]
  exact h.kept hcode hn hu h.inherit

/-- The loop ends. -/
theorem DonationOk.ends {x : Option LockId} (hi : i = .propagate x depth)
    (hchain : chainsShort s) (hround : propagateRound (s.pop rest) x depth = (s.pop rest, none))
    (hs' : s'.sync = { (s.pop rest).sync with intr := s'.intr })
    : s'.inherit.Ok (stale s') := by
  subst hi
  obtain ⟨hdepth, u, hu, hub⟩ := h.locking.chain x depth rest hcode
  have hpass := State.passing_some hcode hu
  have hcode' : s'.code s.current = rest :=
    (State.code_of_sync hs' _).trans (State.pop_current s rest)
  -- the loop does not begin anew behind its end
  have hrest : ∀ x' depth' rest', rest ≠ .propagate x' depth' :: rest' := by
    rintro x' depth' rest' rfl
    obtain ⟨k, hk, -⟩ := (h.locking.current_shape hcode).behind_loop rfl
    cases hk
  have hdone := h.inherit.finish hpass fun l d hl hd => by
    have hx : x = some l := hub.symm.trans hl
    subst hx
    have hd : s.holder l = some d := hd
    by_cases hlt : depth < DONATION_DEPTH
    · by_contra hgt
      have hgt : s.priority d < s.priority s.current := not_le.mp hgt
      have hne : (propagateRound (s.pop rest) (some l) depth).2 ≠ none := by
        simp [propagateRound, State.pop, hlt, hd, hgt]
      exact hne (congrArg Prod.snd hround)
    · -- a chain of `DONATION_DEPTH` links has no further one
      obtain rfl : depth = DONATION_DEPTH := Nat.le_antisymm hdepth (Nat.le_of_not_lt hlt)
      have hstep : s.follow (DONATION_DEPTH + 1) s.current = (s.follow DONATION_DEPTH s.current).bind
          fun u => (s.blockingLock u).bind s.holder := rfl
      rw [hchain s.current h.wf.current_lt, hu, Option.bind_some, hub, Option.bind_some, hd] at hstep
      cases hstep
  rw [State.inherit_eq hs' (h.passing_after hn (hcode' ▸ hrest))]
  exact h.kept hcode hn (by simp) hdone

omit h hcode in
/-- The loop begins at the current thread. -/
theorem passing_begins {x : Option LockId} {l : List Instr}
    (hi : i.switches = false) (hcode' : s'.code s.current = .propagate x 0 :: l) :
    s'.passing = some (s.current, s.current) := by
  have hcur : s'.current = s.current :=
    (exec_current hn).resolve_right fun hc => by simp [hi] at hc
  rw [State.passing_some (u := s.current) (hcur ▸ hcode') (by rw [hcur]; rfl), hcur]

/-- The loop goes on to the holder of the next lock. -/
theorem DonationOk.raise {d : Tid} (hi : i = .propagate (some l) depth)
    (hholder : s.holder l = some d)
    (hlt : s.priority d < s.priority s.current)
    (hs' : s'.sync = { ((s.pop rest).push [.propagate (s.blockingLock d) (depth + 1)]).sync with
      priority := update s.priority d (s.priority s.current) }) :
    s'.inherit.Ok (stale s') := by
  subst hi
  obtain ⟨-, u, hu, hub⟩ := h.locking.chain (some l) depth rest hcode
  have hcode' : s'.code s.current = .propagate (s.blockingLock d) (depth + 1) :: rest :=
    (State.code_of_sync hs' _).trans (State.pop_push_current s rest [_])
  have hcur : s'.current = s.current := (exec_current hn).resolve_right fun hc => by cases hc.1
  have hfollow : s'.follow (depth + 1) s'.current = some d := by
    have hblock : s'.blockingLock = s.blockingLock := congrArg Sync.blockingLock hs'
    have hkept : s'.holder = s.holder := congrArg Sync.holder hs'
    rw [hcur, State.follow_congr hblock hkept]
    show (s.follow depth s.current).bind _ = _
    rw [hu, Option.bind_some, hub, Option.bind_some, hholder]
  have hpass : s'.passing = some (s.current, d) := by
    rw [State.passing_some (hcur ▸ hcode') hfollow, hcur]
  have hok := h.inherit.raise (State.passing_some hcode hu) hub hholder hlt
  rw [State.inherit_eq hs' hpass]
  exact h.kept hcode hn (by simp) hok

/-- `thread_propagate_priority` is called by `thread_set_priority`. -/
theorem DonationOk.own (hi : i = .propagateOwn) (hs' : s'.sync = { ((s.pop rest).push
      [.propagate (s.blockingLock s.current) 0, .intrOn]).sync with intr := false }) :
    s'.inherit.Ok (stale s') := by
  subst hi
  have hcode' : s'.code s.current = .propagate (s.blockingLock s.current) 0 :: .intrOn :: rest :=
    (State.code_of_sync hs' _).trans (State.pop_push_current s rest [_, _])
  have hok := h.inherit.begin (passing_before hcode (by simp)) s.current
  rw [State.inherit_eq hs' (passing_begins hn rfl hcode')]
  exact h.kept hcode hn (by simp) hok

/-- `lock_acquire` of a lock with a holder. -/
theorem DonationOk.donate {d : Tid} (hi : i = .acquire l)
    (hs' : s'.sync = { ((Threads.donate (s.pop rest) l d).push
      [.propagate (some l) 0, .lockDown l]).sync with intr := false }) :
    s'.inherit.Ok (stale s') := by
  subst hi
  have hcode' : s'.code s.current = .propagate (some l) 0 :: .lockDown l :: rest := by
    rw [show s'.code = _ from congrArg Sync.code hs']
    simp [State.push, Threads.donate, State.pop, State.sync]
  have hnone := ((h.locking.current_shape hcode).cons_free rfl).1
  have hok := h.inherit.enter (passing_before hcode (by simp)) hnone l
  rw [State.inherit_eq hs' (passing_begins hn rfl hcode')]
  exact h.kept hcode hn (by simp) hok

omit hn in
/-- A thread outside `lock_acquire` waits for nothing. -/
theorem DonationOk.not_waiting (hi : i.acquires = false) :
    s.blockingLock s.current = none ∧ ∀ x ∈ rest, x.acquires = false :=
  (h.locking.current_shape hcode).cons_free hi

omit hcode hn in
theorem DonationOk.waiting_lt {w : Tid} (hw : s.blockingLock w = some l) :
    w < s.threadCnt := by
  by_contra hge
  have hshape := h.locking.shape w
  rw [show s.code w = [] from (h.wf.queues.fresh w (Nat.le_of_not_lt hge)).2, hw] at hshape
  cases hshape

/-- `lock_acquire` takes the lock. -/
theorem DonationOk.take (hi : i = .lockDown l ∨ i = .lockRetry l)
    (hfront : Foremost s l) (hv : s.value (.lock l) ≠ 0)
    (hs' : s'.sync = (lockTaken ((s.pop rest).setValue (.lock l) (s.value (.lock l) - 1)) l).sync) :
    s'.inherit.Ok (stale s') := by
  have hrest := (h.locking.current_shape hcode).behind_down hi
  have hcode' : s'.code s.current = rest :=
    (State.code_of_sync hs' _).trans (State.pop_current s rest)
  have hi' : ∀ x depth, i ≠ .propagate x depth := by rcases hi with rfl | rfl <;> simp
  have hy : ∀ x depth rest', s'.code s.current ≠ .propagate x depth :: rest' := by
    intro x depth rest' hc
    rw [hcode'] at hc
    cases hrest.1 _ (hc ▸ List.mem_cons_self)
  have hok := h.inherit.take (passing_before hcode hi') (h.locks.unheld hv) hrest.2
    fun w hw hwl => hfront w (h.waiting_lt hwl) hw hwl
  rw [State.inherit_eq hs' (h.passing_after hn hy)]
  exact h.kept hcode hn (by rcases hi with rfl | rfl <;> simp) hok

/-- `lock_try_acquire` sets the holder. -/
theorem DonationOk.trySet (hi : i = .trySet l) (hfront : Foremost s l) (hs' : s'.sync =
      { (s.pop rest).sync with holder := update s.holder l (some s.current) }) :
    s'.inherit.Ok (stale s') := by
  subst hi
  obtain ⟨hnone, hrest⟩ := h.not_waiting hcode rfl
  have hcode' : s'.code s.current = rest :=
    (State.code_of_sync hs' _).trans (State.pop_current s rest)
  have hy : ∀ x depth rest', s'.code s.current ≠ .propagate x depth :: rest' := by
    intro x depth rest' hc
    rw [hcode'] at hc
    cases hrest _ (hc ▸ List.mem_cons_self)
  have hok := h.inherit.take (passing_before hcode (by simp)) (h.locks.holder_none hcode)
    (fun k hk => by rw [show s.inherit.waits s.current = _ from hnone] at hk; cases hk)
    fun w hw hwl => hfront w (h.waiting_lt hwl) hw hwl
  have hsame : update s.blockingLock s.current none = s.blockingLock := by
    rw [← hnone, update_eq_self]
  rw [State.inherit_eq hs' (h.passing_after hn hy)]
  have hok : Inherit.Ok (stale s) ⟨s.priority, s.originalPriority,
    update s.blockingLock s.current none, update s.holder l (some s.current),
    none⟩ := hok
  rw [hsame] at hok
  exact h.kept hcode hn (by simp) hok

omit hn in
/-- The priority that `thread_update_priority` computes is exact, if the donor list
    stands for the threads that wait; `o` is the lock that has been released. -/
theorem DonationOk.computes {z : State} (hi : i.acquires = false) (hcov : Covered s o)
    (hprio : z.priority = s.priority) (horig : z.originalPriority = s.originalPriority)
    (hdonors : ∀ d, d ∈ z.donorThreads s.current ↔
      d ∈ s.donorThreads s.current ∧ (o = none ∨ s.blockingLock d ≠ o))
    (hholder : ∀ l t, z.holder l = some t ↔ s.holder l = some t ∧ some l ≠ o)
    (ho : ∀ l, o = some l → s.holder l = some s.current)
    {st : Tid → Prop} (hst : ∀ t, t ≠ s.current → stale s t → st t) :
    Inherit.Ok st ⟨update s.priority s.current (maxPriority z s.current),
      s.originalPriority, s.blockingLock, z.holder, none⟩ := by
  obtain ⟨hnone, -⟩ := h.not_waiting hcode hi
  have hi' : ∀ x depth, i ≠ .propagate x depth := by
    rintro x depth rfl
    cases hi
  refine h.inherit.update (passing_before hcode hi') hnone (fun l t ht => ?_) ?_ (fun l w hl hw => ?_)
    ?_ hst
  · rw [hholder]
    refine ⟨fun hh => hh.1, fun hh => ⟨hh, fun hlo => ht ?_⟩⟩
    exact Option.some.inj (hh.symm.trans (ho l hlo.symm))
  · show s.originalPriority s.current ≤ _
    rw [← horig]
    exact le_maxPriority_original z s.current
  · -- the donor list stands for the threads that wait
    obtain ⟨hl, hlo⟩ := (hholder l s.current).mp hl
    have hw : s.blockingLock w = some l := hw
    have hstands := hcov w (h.waiting_lt hw) (by rw [hw, Option.bind_some, hl]) (by rwa [hw])
    show s.priority w ≤ _
    rcases hstands with hle | ⟨d, hd, hdo, hle⟩
    · refine hle.trans ?_
      rw [← horig]
      exact le_maxPriority_original z s.current
    · refine hle.trans ?_
      rw [← hprio]
      exact le_maxPriority_donor ((hdonors d).mpr ⟨hd, hdo⟩)
  · rcases maxPriority_cases z s.current with heq | ⟨d, hd, heq⟩
    · refine Or.inl ?_
      rw [heq, horig]
      exact le_rfl
    · obtain ⟨hd, hdo⟩ := (hdonors d).mp hd
      obtain ⟨l, hdl, hl, -⟩ := h.donors.donor d s.current hd
      refine Or.inr ⟨l, d, (hholder l s.current).mpr ⟨hl, ?_⟩, hdl, ?_⟩
      · rcases hdo with rfl | hdo
        · simp
        · rwa [← hdl]
      · rw [heq, hprio]
        exact le_rfl

omit hn in
/-- The instructions behind one outside `lock_acquire`, and others outside. -/
theorem DonationOk.not_loop (hi : i.acquires = false) {l code : List Instr}
    (hl : ∀ x ∈ l, x.acquires = false) (hy : code = l ++ rest) :
    ∀ x depth rest', code ≠ .propagate x depth :: rest' := by
  rintro x depth rest' rfl
  have hx : Instr.propagate x depth ∈ l ++ rest := hy ▸ List.mem_cons_self
  rcases List.mem_append.mp hx with hx | hx
  · cases hl _ hx
  · cases (h.not_waiting hcode hi).2 _ hx

theorem DonationOk.release (hi : i = .release l) (hcov : Covered s (some l))
    (hholder : s.holder l = some s.current)
    (hs' : s'.sync = { ((s.pop rest).push [.semaUp (.lock l)]).sync with
      donorThreads := (donorsKept (s.pop rest) l).donorThreads
      holder := update s.holder l none
      priority := update s.priority s.current
        (maxPriority (donorsKept (s.pop rest) l) s.current) }) : s'.inherit.Ok (stale s') := by
  subst hi
  have hcode' : s'.code s.current = _ ++ rest :=
    (State.code_of_sync hs' _).trans (State.pop_push_current s rest _)
  have hnot := h.not_loop hcode rfl (by simp) hcode'
  have hdonors : ∀ d, d ∈ (donorsKept (s.pop rest) l).donorThreads s.current ↔
      d ∈ s.donorThreads s.current ∧ (some l = none ∨ s.blockingLock d ≠ some l) := by
    intro d
    simp only [donorsKept, State.pop, update_self, List.mem_filter]
    constructor
    · rintro ⟨hd, hb⟩
      exact ⟨hd, Or.inr (of_decide_eq_true hb)⟩
    · rintro ⟨hd, hb⟩
      exact ⟨hd, decide_eq_true (hb.resolve_left (by simp))⟩
  have hkept : ∀ k t, update s.holder l none k = some t ↔
      s.holder k = some t ∧ some k ≠ some l := by
    intro k t
    by_cases hk : k = l
    · subst hk
      simp
    · simp [hk]
  rw [State.inherit_eq hs' (h.passing_after hn hnot)]
  exact h.computes hcode rfl hcov (z := { donorsKept (s.pop rest) l with
      holder := update s.holder l none }) rfl rfl hdonors hkept
    (fun k hk => by cases hk; exact hholder)
    fun t ht hst => stale_exec h.wf hcode hn (Or.inl ht) hst

/-- A new thread. -/
theorem DonationOk.create {p : Int} (hi : i = .create p)
    (hs' : s'.sync = ((newThread (s.pop rest) p).push [.acquire tidLock, .release tidLock,
      .createUnblock s.threadCnt, .createTest s.threadCnt]).sync) : s'.inherit.Ok (stale s') := by
  subst hi
  have hcode' : s'.code s.current = _ ++ rest :=
    (State.code_of_sync hs' _).trans
      (newThread_push_current h.wf.queues.current_ne_fresh _)
  have hnot := h.not_loop hcode rfl (by simp) hcode'
  have hfresh : s.blockingLock s.threadCnt = none := by
    by_contra hne
    obtain ⟨l, hl⟩ := Option.ne_none_iff_exists'.mp hne
    exact lt_irrefl _ (h.waiting_lt hl)
  have hok := h.inherit.create (passing_before hcode (by simp)) hfresh
    (fun l hl => lt_irrefl _ (h.locking.created l _ hl)) p
  rw [State.inherit_eq hs' (h.passing_after hn hnot)]
  exact h.kept hcode hn (by simp) hok

theorem DonationOk.inherit_exec (hok : donating s .run) : s'.inherit.Ok (stale s') := by
  have heff := exec_effect hn
  generalize hy : s'.sync = y at heff
  have hc : s'.code = y.code := congrArg Sync.code hy
  -- the instructions that change neither priorities nor locks
  have hsame : i.acquires = false → i ≠ .updatePriority → ∀ l : List Instr,
      (∀ x ∈ l, x.acquires = false) → y.code s.current = l ++ rest → y.priority = s.priority →
      y.originalPriority = s.originalPriority → y.blockingLock = s.blockingLock →
      y.holder = s.holder → s'.inherit.Ok (stale s') := by
    intro hi hu l hl hcl hp ho hb hh
    have hnot := h.not_loop hcode hi hl ((congrFun hc s.current).trans hcl)
    exact h.same hcode hn (by rintro x depth rfl; cases hi) hu hnot
      ((congrArg Sync.priority hy).trans hp) ((congrArg Sync.originalPriority hy).trans ho)
      ((congrArg Sync.blockingLock hy).trans hb) ((congrArg Sync.holder hy).trans hh)
  cases heff with
  | quiet hq =>
    by_cases hprop : ∃ x depth, i = .propagate x depth
    · obtain ⟨x, depth, rfl⟩ := hprop
      cases hq with
      | propagateEnd _ _ hround =>
        refine h.ends hcode hn rfl hok.1 hround (hy.trans ?_)
        rw [State.push_nil]
        exact congrArg (fun b => { (s.pop rest).sync with intr := b })
          (congrArg Sync.intr hy).symm
    · rcases hq.acquires with hl | ⟨rfl, rfl⟩ | ⟨k, rfl, hk, rfl⟩
      · refine hsame ?_ ?_ _ hl (State.pop_push_current s rest _) rfl rfl rfl rfl
        · cases hq <;> first | rfl | exact absurd ⟨_, _, rfl⟩ hprop
        · cases hq <;> simp
      · refine h.own hcode hn rfl (hy.trans ?_)
        cases hq
        rfl
      · refine h.same hcode hn (by simp) (by simp) ?_ (congrArg Sync.priority hy)
          (congrArg Sync.originalPriority hy) (congrArg Sync.blockingLock hy)
          (congrArg Sync.holder hy)
        intro x depth rest' hcl
        rw [show s'.code s.current = _ from
          (congrFun hc s.current).trans (State.pop_push_current s rest [_])] at hcl
        cases hcl
  | setOriginal p =>
    obtain ⟨-, hrest⟩ := h.not_waiting hcode rfl
    have hnot := h.not_loop hcode rfl (l := []) (by simp)
      ((congrFun hc s.current).trans (State.pop_current s rest))
    have hstale : stale s' s.current := by
      have hsets := h.sets s.current
      rw [hcode] at hsets
      show _ ∈ s'.code s.current
      rw [show s'.code s.current = rest from
        (congrFun hc s.current).trans (State.pop_current s rest)]
      exact hsets.2 p rfl
    have hmono := h.kept hcode hn (by simp) h.inherit
    rw [State.inherit_eq hy (h.passing_after hn hnot)]
    exact hmono.setOwn (passing_before hcode (by simp)) hstale p
  | updatePriority =>
    have hnot := h.not_loop hcode rfl (l := []) (by simp)
      ((congrFun hc s.current).trans (State.pop_current s rest))
    have hcov : Covered s none := by
      simpa only [inherited, hcode] using hok.2
    rw [State.inherit_eq hy (h.passing_after hn hnot)]
    exact h.computes hcode rfl hcov (z := s.pop rest) rfl rfl (by simp [State.pop])
      (by simp [State.pop]) (by simp)
      fun t ht hst => stale_exec h.wf hcode hn (Or.inl ht) hst
  | release l hholder =>
    have hcov : Covered s (some l) := by
      simpa only [inherited, hcode] using hok.2
    exact h.release hcode hn rfl hcov hholder hy
  | propagate l depth d hdepth hholder hlt => exact h.raise hcode hn rfl hholder hlt hy
  | create p => exact h.create hcode hn rfl hy
  | donate l d hholder => exact h.donate hcode hn rfl hy
  | lockTake l hi hv =>
    have hfront : Foremost s l := by
      have := hok.2
      rcases hi with rfl | rfl <;> simp only [inherited, hcode] at this <;> exact this hv
    exact h.take hcode hn hi hfront hv hy
  | lockWait l hi =>
    have hi' : ∀ x depth, i ≠ .propagate x depth := by rcases hi with rfl | rfl <;> simp
    have hu : i ≠ .updatePriority := by rcases hi with rfl | rfl <;> simp
    refine h.same hcode hn hi' hu ?_ (congrArg Sync.priority hy)
      (congrArg Sync.originalPriority hy) (congrArg Sync.blockingLock hy) (congrArg Sync.holder hy)
    intro x depth rest' hcl
    rw [show s'.code s.current = _ from
      (congrFun hc s.current).trans (State.pop_push_current s rest [_])] at hcl
    cases hcl
  | trySet l =>
    have hfront : Foremost s l := by
      simpa only [inherited, hcode] using hok.2
    exact h.trySet hcode hn rfl hfront hy
  | wait m hi =>
    rcases hi with rfl | rfl <;>
    exact hsame rfl (by simp) [.semaRetry m] (by simp)
      (State.pop_push_current s rest [_]) rfl rfl rfl rfl
  | take m hi | upNone m hi =>
    rcases hi with rfl | rfl <;>
    exact hsame rfl (by simp) [] (by simp) (State.pop_current s rest) rfl rfl rfl rfl
  | up m t l hi =>
    rcases hi with ⟨rfl, rfl⟩ | ⟨rfl, rfl⟩ <;>
    exact hsame rfl (by simp) _ (by simp) (State.pop_push_current s rest _)
      rfl rfl rfl rfl
  | timerTick | tryAcquire =>
    exact hsame rfl (by simp) [_] (by simp) (State.pop_push_current s rest [_])
      rfl rfl rfl rfl
  | intrYield =>
    exact hsame rfl (by simp) [.yield, .intrOn] (by simp)
      (State.pop_push_current s rest _) rfl rfl rfl rfl
  | _ => exact hsame rfl (by simp) [] (by simp) (State.pop_current s rest) rfl rfl rfl rfl

end

/-- A call or an interrupt does not change priorities. -/
theorem DonationOk.inherit_arrival {l : List Instr} {b c d : Bool} (h : DonationOk s)
    (ha : Arrival s a l b c) (hc : s'.current = s.current)
    (hs' : s'.sync = { (s.push l).sync with intr := b, inIntr := c, yieldOnReturn := d }) :
    s'.inherit.Ok (stale s') := by
  obtain ⟨-, hfree⟩ := h.locking.arrival_free h.masked ha
  have hl := ha.free.2
  have hcur : s'.code s.current = l ++ s.code s.current :=
    (State.code_of_sync hs' _).trans (update_self ..)
  have hother : ∀ t, t ≠ s.current → s'.code t = s.code t := fun t ht =>
    (State.code_of_sync hs' t).trans (update_of_ne ht ..)
  have hnot : ∀ code : List Instr, (∀ x ∈ code, x.acquires = false) →
      ∀ x depth rest', code ≠ .propagate x depth :: rest' := by
    rintro code hcode x depth rest' rfl
    cases hcode _ List.mem_cons_self
  have hpass : s.passing = none := State.passing_none (hnot _ hfree)
  have hpass' : s'.passing = none := by
    refine State.passing_none (hnot _ ?_)
    rw [hc, hcur]
    exact fun x hx => (List.mem_append.mp hx).elim (hl x) (hfree x)
  have heq : s'.inherit = s.inherit := by
    rw [State.inherit_eq hs' hpass']
    simp only [State.inherit, hpass]
    rfl
  rw [heq]
  refine h.inherit.mono fun t ht => ?_
  by_cases htc : t = s.current
  · subst htc
    show _ ∈ s'.code s.current
    rw [hcur]
    exact List.mem_append_right l ht
  · show _ ∈ s'.code t
    rw [hother t htc]
    exact ht

theorem DonationOk.next (h : DonationOk s) (hok : donating s a)
    (hn : next s a = some s') : DonationOk s' := by
  refine ⟨h.wf.next hn, h.masked.next h.wf hn, h.locks.next h.wf hn,
    h.donors.next h.wf h.masked h.locks hn, h.locking.next h.wf h.masked hok.2 hn,
    sets_next h.wf h.sets hn, ?_⟩
  rcases next_cases hn with ⟨l, b, c, d, harr, hc, -, hs'⟩ | ⟨i, rest, rfl, hcode, hn⟩
  · exact h.inherit_arrival harr hc hs'
  · exact h.inherit_exec hcode hn hok

theorem Initial.donationOk (h : Initial s) : DonationOk s := by
  refine ⟨h.wf, h.masked, h.locksOk, h.donorsOk, h.lockingOk, fun t => ?_, ?_⟩
  · rw [h.code]
    simp only
    split
    · simp [Threads.sets]
    · split <;> simp [Threads.sets]
  · have hpass : s.passing = none := State.passing_none (by simp [h.code, h.current])
    refine ⟨?_, ?_, fun t => Or.inl ?_, fun t => Or.inl ?_⟩
    · intro l w d hl
      rw [show s.inherit.holder l = none from h.holder l] at hl
      cases hl
    · intro c u hp
      rw [show s.inherit.passing = none from hpass] at hp
      cases hp
    · exact (h.originalPriority t).ge
    · exact (h.originalPriority t).le

/-! ## The priorities of threads -/

/-- An instruction in the middle of `lock_acquire`, `lock_try_acquire`,
    `lock_release` or `thread_set_priority`, of a thread that is not blocked in
    `lock_acquire`. -/
def Instr.midway (s : State) (t : Tid) : Instr → Bool
  | .lockRetry l => t ∉ s.waiters (.lock l)
  | .propagate _ _ | .lockDown _ | .trySet _ | .semaUp (.lock _) | .updatePriority | .propagateOwn
  | .setTest => true
  | _ => false

/-- No thread is in the middle of one of these functions, except threads blocked
    in `lock_acquire`. -/
def restful (s : State) : Prop := ∀ t, ∀ x ∈ s.code t, x.midway s t = false

theorem restful_of_created (hwf : Wf s)
    (h : ∀ t < s.threadCnt, ∀ x ∈ s.code t, x.midway s t = false) : restful s := by
  intro t x hx
  by_cases ht : t < s.threadCnt
  · exact h t ht x hx
  · rw [show s.code t = [] from (hwf.queues.fresh t (Nat.le_of_not_lt ht)).2] at hx
    cases hx

/-- The original priority of a thread, and the priorities of the threads that are
    blocked in `lock_acquire` on a lock it holds. -/
def donations (s : State) (t : Tid) : Set Int :=
  insert (s.originalPriority t)
    {p | ∃ l w, s.holder l = some t ∧ w ∈ s.waiters (.lock l) ∧ p = s.priority w}

/-- Where nobody is in `lock_acquire` but blocked, the threads that wait are those
    with a `blocking_lock`. -/
theorem DonationOk.waiters_iff (h : DonationOk s) (hq : restful s) (w : Tid) (l : LockId) :
    w ∈ s.waiters (.lock l) ↔ s.blockingLock w = some l := by
  have hshape := h.locking.shape w
  constructor
  · intro hw
    obtain ⟨rest, hcode⟩ : ∃ rest, s.code w = .lockRetry l :: rest := by
      have hhead := (h.wf.lockRetry hw).2
      cases hc : s.code w with
      | nil => simp [hc] at hhead
      | cons x rest =>
        rw [hc] at hhead
        cases hhead
        exact ⟨rest, rfl⟩
    rw [hcode] at hshape
    generalize s.blockingLock w = o at hshape ⊢
    cases hshape with
    | free hf => cases hf _ List.mem_cons_self
    | retry => rfl
  · intro hw
    rw [hw] at hshape
    generalize hcode : s.code w = code at hshape
    have hmid : ∀ x ∈ code, x.midway s w = false := fun x hx => hq w x (hcode ▸ hx)
    cases hshape with
    | donating x depth => cases hmid _ List.mem_cons_self
    | down => cases hmid _ List.mem_cons_self
    | retry => simpa [Instr.midway] using hmid _ List.mem_cons_self

/-- In a run in which a lock goes to a thread of the highest priority of those that
    wait for it, and the donor list stands for the threads that wait whenever
    `thread_update_priority` uses it, every thread has the greatest of its
    original priority and the priorities of the threads that wait for it. -/
theorem donation_exact (h : machine.Reaches donating s) (hq : restful s) (t : Tid) :
    IsGreatest (donations s t) (s.priority t) := by
  have hok : DonationOk s := System.Reaches.invariant (I := DonationOk)
    (fun _ hs => Initial.donationOk hs) (fun _ _ _ hs ha hn => hs.next ha hn) h
  have hpass : s.inherit.passing = none := by
    refine State.passing_none fun x depth rest hcode => ?_
    cases hq s.current (.propagate x depth) (hcode ▸ List.mem_cons_self)
  have hstale : ¬stale s t := by
    intro hst
    cases hq t .updatePriority hst
  have hset : donations s t = insert (s.originalPriority t) {p | ∃ l w, s.holder l = some t ∧
      s.blockingLock w = some l ∧ p = s.priority w} := by
    simp only [donations, hok.waiters_iff hq]
  rw [hset]
  exact hok.inherit.isGreatest hpass hstale

/-- Threads 2 and 3, of priority 32 and 33, wait for the lock of the initial
    thread, which has the priority 33. -/
theorem donation_exact_two : ∃ s, machine.Reaches donating s ∧ restful s ∧ s.holder 5 = some 0 ∧
    s.waiters (.lock 5) = [3, 2] ∧ s.originalPriority 0 = 31 ∧ IsGreatest (donations s 0) 33 := by
  obtain ⟨s, hs, hp⟩ := System.reaches_of_run (S := machine) donating boot_initial
    (l := bootLabels ++ .call (.lockAcquire 5) :: List.replicate 2 .run ++
      .call (.threadCreate 32) :: List.replicate 9 .run ++
      .call (.lockAcquire 5) :: List.replicate 5 .run ++
      .call (.threadCreate 33) :: List.replicate 9 .run ++
      .call (.lockAcquire 5) :: List.replicate 5 .run)
    (p := fun s => decide (∀ t < s.threadCnt, ∀ x ∈ s.code t, x.midway s t = false) &&
      s.holder 5 == some 0 && s.waiters (.lock 5) == [3, 2] && s.originalPriority 0 == 31 &&
      s.priority 0 == 33) (by decide +kernel)
  simp only [Bool.and_eq_true, beq_iff_eq, decide_eq_true_eq] at hp
  obtain ⟨⟨⟨⟨hmid, hholder⟩, hwait⟩, horig⟩, hprio⟩ := hp
  have hq := restful_of_created (wf_of_reachable hs.reachable) hmid
  exact ⟨s, hs, hq, hholder, hwait, horig, hprio ▸ donation_exact hs hq 0⟩

/-- The lock goes from the initial thread to thread 3 while thread 2, of priority
    32, still waits for it.  Thread 3 sets its priority to 10, and has it although
    thread 2 waits. -/
theorem donation_lost : ∃ s, machine.Reaches (fun s _ => chainsShort s) s ∧ restful s ∧
    s.holder 5 = some 3 ∧ 2 ∈ s.waiters (.lock 5) ∧ s.priority 2 = 32 ∧ s.priority 3 = 10 ∧
    ¬IsGreatest (donations s 3) (s.priority 3) := by
  obtain ⟨s, hs, hp⟩ := System.reaches_of_run (S := machine) (fun s _ => chainsShort s) boot_initial
    (l := bootLabels ++ .call (.lockAcquire 5) :: List.replicate 2 .run ++
      .call (.threadCreate 32) :: List.replicate 9 .run ++
      .call (.lockAcquire 5) :: List.replicate 5 .run ++
      .call (.threadCreate 33) :: List.replicate 9 .run ++
      .call (.lockAcquire 5) :: List.replicate 5 .run ++
      .call (.lockRelease 5) :: List.replicate 5 .run ++
      .call (.threadSetPriority 10) :: List.replicate 7 .run)
    (p := fun s => decide (∀ t < s.threadCnt, ∀ x ∈ s.code t, x.midway s t = false) &&
      s.holder 5 == some 3 && s.waiters (.lock 5) == [2] && s.priority 2 == 32 &&
      s.priority 3 == 10) (by decide +kernel)
  simp only [Bool.and_eq_true, beq_iff_eq, decide_eq_true_eq] at hp
  obtain ⟨⟨⟨⟨hmid, hholder⟩, hwait⟩, h2⟩, h3⟩ := hp
  have hq := restful_of_created (wf_of_reachable hs.reachable) hmid
  refine ⟨s, hs, hq, hholder, by simp [hwait], h2, h3, fun hgreat => ?_⟩
  have hle : s.priority 2 ≤ s.priority 3 :=
    hgreat.2 (Or.inr ⟨5, 2, hholder, by simp [hwait], rfl⟩)
  rw [h2, h3] at hle
  exact absurd hle (by decide)

end Pintos.Threads
