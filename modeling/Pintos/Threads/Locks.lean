/-
  Pintos.Threads.Locks

  Mutual exclusion.  A thread is inside a lock from the moment `lock_acquire` or
  `lock_try_acquire` takes the semaphore to the `sema_up` of `lock_release`: it
  is the holder, or it has taken the semaphore and not yet set the holder, or it
  has cleared the holder and not yet raised the semaphore.
-/

import Pintos.Threads.Masking

namespace Pintos.Threads

open Pintos.Base Function

variable {s s' : State} {i : Instr} {rest : List Instr} {y : Sync} {k : LockId}

/-! ## Tokens -/

def holds (holder : Option Tid) (t : Tid) : Nat := if holder = some t then 1 else 0

/-- How often a thread is inside a lock, by the holder and its code. -/
def Sync.token (y : Sync) (l : LockId) (t : Tid) : Nat :=
  holds (y.holder l) t + (y.code t).count (.trySet l) + (y.code t).count (.semaUp (.lock l))

/-- At most one thread is inside a lock, and then the semaphore is 0. -/
structure LocksOk (y : Sync) : Prop where
  once : ∀ l t, y.token l t ≤ 1
  unique : ∀ l t u, 0 < y.token l t → 0 < y.token l u → t = u
  value : ∀ l, y.value (.lock l) ≤ 1
  taken : ∀ l t, 0 < y.token l t → y.value (.lock l) = 0

/-- The instruction takes the semaphore of the lock. -/
def Instr.enters (i : Instr) (l : LockId) : Prop :=
  i = .lockDown l ∨ i = .lockRetry l ∨ i = .tryAcquire l

instance (i : Instr) (l : LockId) : Decidable (i.enters l) :=
  inferInstanceAs (Decidable (_ ∨ _ ∨ _))

/-- What an instruction does to a lock. -/
inductive LockMove (y : Sync) (cur : Tid) (i : Instr) (y' : Sync) (l : LockId) : Prop
  | stay (henter : i.enters l → y.value (.lock l) = 0) (hleave : i ≠ .semaUp (.lock l))
    (htoken : ∀ t, y'.token l t = y.token l t) (hvalue : y'.value (.lock l) = y.value (.lock l))
  | enter (hi : i.enters l) (hne : y.value (.lock l) ≠ 0)
    (htoken : ∀ t, y'.token l t = y.token l t + if t = cur then 1 else 0)
    (hvalue : y'.value (.lock l) = y.value (.lock l) - 1)
  | leave (hi : i = .semaUp (.lock l))
    (htoken : ∀ t, y'.token l t + (if t = cur then 1 else 0) = y.token l t)
    (hvalue : y'.value (.lock l) = (y.value (.lock l) + 1) % 2 ^ 32)

/-- The instructions `l` take the place of the instruction `i` of the current
    thread; a new thread begins with `intrOn`. -/
def Replaces (s : State) (i : Instr) (l : List Instr) (code : Tid → List Instr) : Prop :=
  ∀ x t, x ≠ .intrOn → (code t).count x + (if t = s.current ∧ i = x then 1 else 0) =
    (s.code t).count x + if t = s.current then l.count x else 0

theorem replaces_push (hcode : s.code s.current = i :: rest) (l : List Instr) :
    Replaces s i l ((s.pop rest).push l).code := by
  intro x t _
  rw [State.pop_push]
  by_cases ht : t = s.current
  · subst ht
    simp only [update_self, hcode, List.count_append, List.count_cons, true_and, if_true,
      beq_iff_eq]
    omega
  · simp [ht]

theorem replaces_pop (hcode : s.code s.current = i :: rest) :
    Replaces s i [] (s.pop rest).code := by
  have h := replaces_push hcode []
  rwa [State.push_nil] at h

theorem replaces_create {p : Int} (hcode : s.code s.current = i :: rest)
    (hfresh : s.current ≠ s.threadCnt) (hnew : s.code s.threadCnt = []) (l : List Instr) :
    Replaces s i l ((newThread (s.pop rest) p).push l).code := by
  intro x t hx
  by_cases ht : t = s.current
  · subst ht
    rw [newThread_push_current hfresh]
    simp only [hcode, List.count_append, List.count_cons, true_and, if_true, beq_iff_eq]
    omega
  · by_cases htc : t = s.threadCnt
    · subst htc
      simp [newThread, State.push, State.pop, Ne.symm hfresh, hnew, Ne.symm hx]
    · simp [newThread, State.push, State.pop, ht, htc]

theorem Quiet.no_token {l : List Instr} {b : Option Bool} (h : Quiet s i l b) (k : LockId) :
    (i ≠ .trySet k ∧ i ≠ .semaUp (.lock k)) ∧
      (l.count (.trySet k) = 0 ∧ l.count (.semaUp (.lock k)) = 0) ∧
      (i.enters k → s.value (.lock k) = 0) := by
  cases h <;> simp_all [Instr.enters]
  exact fun h => h ▸ ‹_›

/-- The instructions that stand for a thread inside the lock. -/
def Instr.tokens (i : Instr) (k : LockId) : Nat :=
  if i = .trySet k ∨ i = .semaUp (.lock k) then 1 else 0

theorem token_of_replaces {l : List Instr} (hcode : Replaces s i l y.code) (k : LockId) (t : Tid) :
    y.token k t + holds (s.holder k) t + (if t = s.current then i.tokens k else 0) =
      s.sync.token k t + holds (y.holder k) t +
        if t = s.current then l.count (.trySet k) + l.count (.semaUp (.lock k)) else 0 := by
  have h₁ := hcode (.trySet k) t (by simp)
  have h₂ := hcode (.semaUp (.lock k)) t (by simp)
  simp only [Sync.token, State.sync, Instr.tokens]
  by_cases ht : t = s.current
  · subst ht
    by_cases hi₁ : i = .trySet k
    · subst hi₁
      simp at h₁ h₂ ⊢
      omega
    · simp [hi₁] at h₁ h₂ ⊢
      omega
  · simp [ht] at h₁ h₂ ⊢
    omega

/-- An instruction that has nothing to do with the lock. -/
theorem LockMove.of_replaces {l : List Instr} (hcode : Replaces s i l y.code)
    (hi : i ≠ .trySet k ∧ i ≠ .semaUp (.lock k))
    (hl : l.count (.trySet k) = 0 ∧ l.count (.semaUp (.lock k)) = 0)
    (henter : i.enters k → s.value (.lock k) = 0) (hholder : y.holder k = s.holder k)
    (hvalue : y.value (.lock k) = s.value (.lock k)) : LockMove s.sync s.current i y k := by
  refine .stay henter hi.2 (fun t => ?_) hvalue
  have h := token_of_replaces hcode k t
  simp [Instr.tokens, hi, hl, hholder] at h
  omega

theorem LockMove.up {l : List Instr} (hcode : Replaces s (.semaUp (.lock k)) l y.code)
    (hl : l.count (.trySet k) = 0 ∧ l.count (.semaUp (.lock k)) = 0)
    (hholder : y.holder k = s.holder k)
    (hvalue : y.value (.lock k) = (s.value (.lock k) + 1) % 2 ^ 32) :
    LockMove s.sync s.current (.semaUp (.lock k)) y k := by
  refine .leave rfl (fun t => ?_) hvalue
  have h := token_of_replaces hcode k t
  simp [Instr.tokens, hl, hholder] at h
  omega

theorem LocksOk.free (hok : LocksOk s.sync) (h : s.value (.lock k) ≠ 0) (t : Tid) :
    s.sync.token k t = 0 := Nat.eq_zero_of_not_pos fun ht => h (hok.taken k t ht)

theorem holds_le_token (k : LockId) (t : Tid) : holds (s.holder k) t ≤ s.sync.token k t := by
  simp only [Sync.token, State.sync]
  omega

theorem holds_some (u t : Tid) : holds (some u) t = if t = u then 1 else 0 := by
  simp only [holds, Option.some.injEq, eq_comm]

theorem holds_none (t : Tid) : holds none t = 0 := rfl

theorem LocksOk.unheld {l : LockId} (hok : LocksOk s.sync) (hv : s.value (.lock l) ≠ 0) :
    s.holder l = none := by
  cases hh : s.holder l with
  | none => rfl
  | some t =>
    have h0 := hok.free hv t
    have h1 := holds_le_token (s := s) l t
    rw [hh, holds_some, if_pos rfl] at h1
    omega

/-- `lock_try_acquire` finds the lock without a holder. -/
theorem LocksOk.holder_none (hok : LocksOk s.sync)
    (hcode : s.code s.current = .trySet k :: rest) : s.holder k = none := by
  have hcount : 1 + holds (s.holder k) s.current ≤ s.sync.token k s.current := by
    simp only [Sync.token, State.sync, hcode, List.count_cons_self]
    omega
  have honce := hok.once k s.current
  cases hh : s.holder k with
  | none => rfl
  | some u =>
    have hu : 1 ≤ s.sync.token k u := by
      refine Nat.le_trans ?_ (holds_le_token k u)
      simp [hh, holds_some]
    have := hok.unique k u s.current hu (by omega)
    subst this
    simp [hh, holds_some] at hcount
    omega

/-- `lock_acquire` gets the lock. -/
theorem LockMove.take (hok : LocksOk s.sync) (hcode : Replaces s i [] y.code)
    (hi : i = .lockDown k ∨ i = .lockRetry k) (h : s.value (.lock k) ≠ 0)
    (hholder : y.holder k = some s.current)
    (hvalue : y.value (.lock k) = s.value (.lock k) - 1) : LockMove s.sync s.current i y k := by
  refine .enter (by rcases hi with rfl | rfl <;> simp [Instr.enters]) h (fun t => ?_) hvalue
  have htok : i.tokens k = 0 := by rcases hi with rfl | rfl <;> rfl
  have heq := token_of_replaces hcode k t
  have hz := holds_le_token (s := s) k t
  rw [hok.free h t] at hz heq ⊢
  simp only [hholder, holds_some, htok, List.count_nil, ite_self] at heq
  omega

theorem LockMove.tryTake (hcode : Replaces s (.tryAcquire k) [.trySet k] y.code)
    (h : s.value (.lock k) ≠ 0) (hholder : y.holder k = s.holder k)
    (hvalue : y.value (.lock k) = s.value (.lock k) - 1) :
    LockMove s.sync s.current (.tryAcquire k) y k := by
  refine .enter (by simp [Instr.enters]) h (fun t => ?_) hvalue
  have heq := token_of_replaces hcode k t
  simp [Instr.tokens, hholder] at heq
  omega

theorem LockMove.trySet (hcode : Replaces s (.trySet k) [] y.code)
    (hnone : s.holder k = none) (hholder : y.holder k = some s.current)
    (hvalue : y.value (.lock k) = s.value (.lock k)) :
    LockMove s.sync s.current (.trySet k) y k := by
  refine .stay (by simp [Instr.enters]) (by simp) (fun t => ?_) hvalue
  have heq := token_of_replaces hcode k t
  simp [Instr.tokens, hholder, hnone, holds_none, holds_some] at heq
  omega

theorem LockMove.release (hcode : Replaces s (.release k) [.semaUp (.lock k)] y.code)
    (hsome : s.holder k = some s.current) (hholder : y.holder k = none)
    (hvalue : y.value (.lock k) = s.value (.lock k)) :
    LockMove s.sync s.current (.release k) y k := by
  refine .stay (by simp [Instr.enters]) (by simp) (fun t => ?_) hvalue
  have heq := token_of_replaces hcode k t
  simp [Instr.tokens, hholder, hsome, holds_none, holds_some] at heq
  omega

theorem Effect.lockMove (hcode : s.code s.current = i :: rest)
    (hfresh : s.current ≠ s.threadCnt) (hnew : s.code s.threadCnt = [])
    (hbelongs : i.belongs s.idleThread s.current) (hok : LocksOk s.sync)
    (h : Effect (s.pop rest) i y) (k : LockId) : LockMove s.sync s.current i y k := by
  have hpop := replaces_pop hcode
  have hpush := replaces_push hcode
  cases h with
  | @quiet _ l b h =>
    obtain ⟨hi, hl, he⟩ := h.no_token k
    exact .of_replaces (hpush l) hi hl he rfl rfl
  | intrReturn | setOriginal | updatePriority | condRemove =>
    exact .of_replaces hpop (by simp) (by simp) (by simp [Instr.enters]) rfl rfl
  | timerTick | intrYield | propagate | donate =>
    exact .of_replaces (hpush _) (by simp) (by simp) (by simp [Instr.enters]) rfl rfl
  | condPush c l =>
    refine .of_replaces hpop (by simp) (by simp) (by simp [Instr.enters]) rfl ?_
    simp [State.pop]
  | create p =>
    exact .of_replaces (replaces_create hcode hfresh hnew _) (by simp) (by simp)
      (by simp [Instr.enters]) rfl rfl
  | wait m hi h =>
    rcases hi with rfl | rfl <;>
      exact .of_replaces (hpush _) (by simp) (by simp) (by simp [Instr.enters]) rfl rfl
  | take m hi h =>
    have hm : SemaId.lock k ≠ m := by
      rintro rfl
      rcases hi with rfl | rfl <;> exact hbelongs
    rcases hi with rfl | rfl <;>
      exact .of_replaces hpop (by simp) (by simp) (by simp [Instr.enters]) rfl
        (update_of_ne hm ..)
  | tryDown m h =>
    obtain ⟨n, rfl⟩ := hbelongs
    refine .of_replaces hpop (by simp) (by simp) (by simp [Instr.enters]) rfl ?_
    simp [State.pop, State.setValue, State.sync]
  | upNone m hi h =>
    by_cases hm : SemaId.lock k = m
    · subst hm
      rcases hi with rfl | rfl
      · exact .up hpop (by simp) rfl (update_self ..)
      · obtain ⟨n, hn⟩ := hbelongs
        cases hn
    · rcases hi with rfl | rfl <;>
        exact .of_replaces hpop (by simp [Ne.symm hm]) (by simp) (by simp [Instr.enters]) rfl
          (update_of_ne hm ..)
  | up m t l hi =>
    by_cases hm : SemaId.lock k = m
    · subst hm
      rcases hi with ⟨rfl, rfl⟩ | ⟨rfl, rfl⟩
      · exact .up (hpush _) (by simp) rfl (update_self ..)
      · obtain ⟨n, hn⟩ := hbelongs
        cases hn
    · rcases hi with ⟨rfl, rfl⟩ | ⟨rfl, rfl⟩ <;>
        exact .of_replaces (hpush _) (by simp [Ne.symm hm]) (by simp) (by simp [Instr.enters]) rfl
          (update_of_ne hm ..)
  | lockWait l hi h =>
    rcases hi with rfl | rfl <;>
      exact .of_replaces (hpush _) (by simp) (by simp)
        (by simp only [Instr.enters, Instr.lockDown.injEq, Instr.lockRetry.injEq, reduceCtorEq,
          or_false, false_or]; rintro rfl; exact h) rfl rfl
  | lockTake l hi h =>
    by_cases hk : l = k
    · subst hk
      exact .take hok hpop hi h (update_self ..) (update_self ..)
    · rcases hi with rfl | rfl <;>
        exact .of_replaces hpop (by simp) (by simp) (by simp [Instr.enters, hk])
          (update_of_ne (Ne.symm hk) ..)
          (by simp [State.pop, State.setValue, State.sync, lockTaken, Ne.symm hk])
  | tryAcquire l hne h =>
    by_cases hk : l = k
    · subst hk
      exact .tryTake (hpush _) h rfl (update_self ..)
    · exact .of_replaces (hpush _) (by simp) (by simp [hk]) (by simp [Instr.enters, hk]) rfl
        (by simp [State.pop, State.push, State.setValue, State.sync, Ne.symm hk])
  | trySet l =>
    by_cases hk : l = k
    · subst hk
      exact .trySet hpop (hok.holder_none hcode) (update_self ..) rfl
    · exact .of_replaces hpop (by simp [hk]) (by simp) (by simp [Instr.enters])
        (update_of_ne (Ne.symm hk) ..) rfl
  | release l hholder =>
    by_cases hk : l = k
    · subst hk
      exact .release (hpush _) hholder (update_self ..) rfl
    · exact .of_replaces (hpush _) (by simp) (by simp [hk]) (by simp [Instr.enters])
        (update_of_ne (Ne.symm hk) ..) rfl

theorem LocksOk.of_moves {y' : Sync} {cur : Tid} (hok : LocksOk y)
    (hm : ∀ k, LockMove y cur i y' k) : LocksOk y' := by
  constructor
  case once =>
    intro k t
    have honce := hok.once k t
    cases hm k with
    | stay _ _ htoken _ => rwa [htoken]
    | enter _ hne htoken _ =>
      have hfree : y.token k t = 0 :=
        Nat.eq_zero_of_not_pos fun ht => hne (hok.taken k t ht)
      rw [htoken, hfree]
      split <;> omega
    | leave _ htoken _ =>
      have := htoken t
      omega
  case unique =>
    intro k t u ht hu
    cases hm k with
    | stay _ _ htoken _ =>
      rw [htoken] at ht hu
      exact hok.unique k t u ht hu
    | enter _ hne htoken _ =>
      have hfree : ∀ v, y.token k v = 0 := fun v =>
        Nat.eq_zero_of_not_pos fun hv => hne (hok.taken k v hv)
      simp only [htoken, hfree] at ht hu
      grind
    | leave _ htoken _ =>
      have h₁ := htoken t
      have h₂ := htoken u
      exact hok.unique k t u (by omega) (by omega)
  case value =>
    intro k
    have hv := hok.value k
    cases hm k with
    | stay _ _ _ hvalue => rwa [hvalue]
    | enter _ _ _ hvalue => omega
    | leave _ htoken hvalue =>
      have hcur := htoken cur
      rw [if_pos rfl] at hcur
      have hfree := hok.taken k cur (by omega)
      omega
  case taken =>
    intro k t ht
    cases hm k with
    | stay _ _ htoken hvalue =>
      rw [hvalue]
      exact hok.taken k t (htoken t ▸ ht)
    | enter _ _ _ hvalue =>
      have := hok.value k
      omega
    | leave _ htoken hvalue =>
      -- the thread that leaves was the only one inside
      exfalso
      have hcur := htoken cur
      have honce := hok.once k cur
      rw [if_pos rfl] at hcur
      have h := htoken t
      have hcu := hok.unique k t cur (by omega) (by omega)
      rw [hcu, if_pos rfl] at h
      rw [hcu] at ht
      omega

theorem LocksOk.of_code {code : Tid → List Instr} {b c d : Bool} (hok : LocksOk y)
    (hcode : ∀ k t, (code t).count (.trySet k) = (y.code t).count (.trySet k) ∧
      (code t).count (.semaUp (.lock k)) = (y.code t).count (.semaUp (.lock k))) :
    LocksOk { y with code := code, intr := b, inIntr := c, yieldOnReturn := d } := by
  have htoken : ∀ k t, Sync.token { y with code := code, intr := b, inIntr := c, yieldOnReturn := d } k t =
      y.token k t := by
    intro k t
    simp only [Sync.token, hcode]
  constructor
  · simpa only [htoken] using hok.once
  · simpa only [htoken] using hok.unique
  · exact hok.value
  · simpa only [htoken] using hok.taken

theorem Arrival.no_token {a : Label} {l : List Instr} {b c : Bool} (h : Arrival s a l b c)
    (k : LockId) : l.count (.trySet k) = 0 ∧ l.count (.semaUp (.lock k)) = 0 := by
  cases h with
  | call op => cases op <;> simp [Op.code]
  | timer => simp
  | device l =>
    simp only [List.count_eq_zero]
    constructor <;>
    · intro hmem
      rcases List.mem_append.mp hmem with hmem | hmem
      · obtain ⟨x, -, hx⟩ := List.mem_map.mp hmem
        cases x <;> cases hx
      · simp at hmem

theorem LocksOk.next {a : Label} (hwf : Wf s) (hok : LocksOk s.sync)
    (hn : next s a = some s') : LocksOk s'.sync := by
  rcases next_cases hn with ⟨l, b, c, d, harr, -, -, hs'⟩ | ⟨i, rest, -, hcode, hn⟩
  · rw [hs']
    refine hok.of_code fun k t => ?_
    by_cases ht : t = s.current
    · subst ht
      simp [State.sync, State.push, List.count_append, harr.no_token]
    · simp [State.sync, State.push, ht]
  · refine hok.of_moves fun k => Effect.lockMove hcode hwf.queues.current_ne_fresh
      (hwf.queues.fresh _ le_rfl).2 (hwf.queues.belongs _ i ?_) hok (exec_effect hn) k
    show i ∈ s.code s.current
    simp [hcode]

theorem Initial.token_zero (h : Initial s) (k : LockId) (t : Tid) : s.sync.token k t = 0 := by
  simp only [Sync.token, State.sync, h.holder, h.code, holds_none]
  split
  · simp
  · split <;> simp

theorem Initial.locksOk (h : Initial s) : LocksOk s.sync := by
  have htoken := h.token_zero
  constructor
  · simp [htoken]
  · simp [htoken]
  · intro k
    exact (h.value.2 k).le
  · simp [htoken]

end Pintos.Threads
