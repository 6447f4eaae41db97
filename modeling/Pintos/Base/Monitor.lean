/-
  Pintos.Base.Monitor

  Condition variables made of private semaphores.  A thread that waits puts
  itself on the list of the condition, releases the lock of the condition, and
  goes down on a semaphore of its own; a signaller that holds the lock chooses a
  thread on the list, raises its semaphore, and takes it off the list.

  The threads are described by the phase of the operation they are in.  A thread
  is on the list and its semaphore is 0, or it has been signalled and its
  semaphore is 1 until it takes it: no signal is lost.  The thread that is
  signalled has the greatest rank on the list, and `broadcast` signals each
  thread it found on the list once.
-/

import Mathlib

namespace Pintos.Base

open Function

/-- The operations on conditions. -/
inductive Call where
  | wait
  | signal
  | broadcast
  deriving DecidableEq, Repr

/-- Where a thread is in the operations on conditions. -/
inductive Phase (α κ ℓ : Type) where
  | other
  /-- In `wait`, before it is on the list. -/
  | enters (k : κ)
  /-- In `wait`, on the list and before its semaphore is taken. -/
  | waits (l : ℓ)
  /-- In `wait` or elsewhere, acquiring the lock. -/
  | reacquires (l : ℓ)
  /-- In `signal`; `b` says that it is a pass of `broadcast`. -/
  | signals (k : κ) (b : Bool)
  /-- Looking for the thread to signal: the best so far and the rest. -/
  | scans (k : κ) (best : α) (rest : List α) (b : Bool)
  /-- About to raise the semaphore of the chosen thread. -/
  | ups (k : κ) (w : α) (b : Bool)
  /-- About to take the chosen thread off the list. -/
  | removes (k : κ) (w : α) (b : Bool)
  /-- At the test of the loop of `broadcast`. -/
  | broadcasts (k : κ)

/-- The condition a thread signals. -/
def Phase.signalled {α κ ℓ : Type} : Phase α κ ℓ → Option κ
  | .signals k _ | .scans k _ _ _ | .ups k _ _ | .removes k _ _ | .broadcasts k => some k
  | _ => none

/-- The condition whose list a thread compares. -/
def Phase.chooses {α κ ℓ : Type} : Phase α κ ℓ → Option κ
  | .scans k _ _ _ | .ups k _ _ => some k
  | _ => none

/-- The operation of a signaller. -/
def Phase.call {α κ ℓ : Type} : Phase α κ ℓ → Option Call
  | .signals _ b | .scans _ _ _ b | .ups _ _ b | .removes _ _ b =>
    some (if b then .broadcast else .signal)
  | .broadcasts _ => some .broadcast
  | _ => none

/-- Where a signaller goes on. -/
def Phase.after {α κ ℓ : Type} (k : κ) (b : Bool) : Phase α κ ℓ :=
  if b then .broadcasts k else .other

@[ext]
structure Monitor (α κ ℓ : Type) where
  phase : α → Phase α κ ℓ
  lists : κ → List α
  /-- The semaphore of a thread. -/
  value : α → Nat
  /-- The thread is blocked on its semaphore. -/
  parked : α → Bool
  holder : ℓ → Option α
  rank : α → Int
  /-- The last operation a thread has called. -/
  last : α → Option Call
  /-- The list it found when it called the operation. -/
  before : α → List α
  /-- The threads it has signalled since. -/
  woken : α → List α

namespace Monitor

variable {α κ ℓ : Type}

/-- Some thread is about to take `w` off the list of `k`. -/
def Removing (phase : α → Phase α κ ℓ) (k : κ) (w : α) : Prop :=
  ∃ t b, phase t = .removes k w b

structure Ok (lockOf : κ → ℓ) (m : Monitor α κ ℓ) : Prop where
  enters : ∀ t k, m.phase t = .enters k → m.holder (lockOf k) = some t
  signalled : ∀ t k, (m.phase t).signalled = some k → m.holder (lockOf k) = some t
  nodup : ∀ k, (m.lists k).Nodup
  unique : ∀ k k' w, w ∈ m.lists k → w ∈ m.lists k' → k = k'
  /-- A thread on a list waits, or has been signalled and is being taken off. -/
  listed : ∀ k w, w ∈ m.lists k →
    m.phase w = .waits (lockOf k) ∧ m.value w = 0 ∧ ¬Removing m.phase k w ∨
    Removing m.phase k w ∧
      (m.phase w = .waits (lockOf k) ∧ m.value w = 1 ∧ m.parked w = false ∨
        m.phase w = .reacquires (lockOf k))
  /-- A thread that waits off the list has been signalled. -/
  unlisted : ∀ w l, m.phase w = .waits l → (∀ k, w ∉ m.lists k) →
    m.value w = 1 ∧ m.parked w = false
  signals : ∀ t k, m.phase t = .signals k true → m.lists k ≠ []
  /-- When threads are compared, all threads on the list are parked. -/
  scans : ∀ t k best rest b, m.phase t = .scans k best rest b →
    best ∈ m.lists k ∧ (∀ u ∈ rest, u ∈ m.lists k) ∧
      (rest ≠ [] → ∀ u ∈ m.lists k, m.parked u = true)
  ups : ∀ t k w b, m.phase t = .ups k w b → w ∈ m.lists k
  removes : ∀ t k w b, m.phase t = .removes k w b → w ∈ m.lists k
  parked : ∀ w, m.parked w = true → ∃ l, m.phase w = .waits l

variable [DecidableEq α]

/-- A step of thread `cur`. -/
inductive Step [DecidableEq κ] (lockOf : κ → ℓ) (m : Monitor α κ ℓ) (cur : α) :
    Monitor α κ ℓ → Prop
  /-- Outside the operations on conditions. -/
  | other (p : Phase α κ ℓ) (h : ℓ → Option α) (hp : m.phase cur = .other ∨
      ∃ l, m.phase cur = .reacquires l ∧ (p = .reacquires l ∨ m.holder l = none))
    (hp' : p = .other ∨ ∃ l, p = .reacquires l)
    (hh : ∀ l t, t ≠ cur → m.holder l = some t → h l = some t) :
    Step lockOf m cur { m with phase := update m.phase cur p, holder := h }
  /-- `wait`, `signal` or `broadcast` is called. -/
  | call (k : κ) (p : Phase α κ ℓ) (c : Call) (hp : m.phase cur = .other)
    (hp' : p = .enters k ∧ c = .wait ∨ p = .signals k false ∧ c = .signal ∨
      p = .broadcasts k ∧ c = .broadcast)
    (hh : m.holder (lockOf k) = some cur) :
    Step lockOf m cur { m with
      phase := update m.phase cur p
      last := update m.last cur (some c)
      before := update m.before cur (m.lists k)
      woken := update m.woken cur [] }
  /-- The thread puts itself on the list. -/
  | enter (k : κ) (hp : m.phase cur = .enters k) :
    Step lockOf m cur { m with
      phase := update m.phase cur (.waits (lockOf k))
      lists := update m.lists k (m.lists k ++ [cur])
      value := update m.value cur 0 }
  /-- The thread releases the lock, or goes down on its semaphore and parks. -/
  | wait (l : ℓ) (b : Bool) (h : ℓ → Option α) (hp : m.phase cur = .waits l)
    (hrun : m.parked cur = false) (hb : b = true → m.value cur = 0)
    (hh : ∀ l t, t ≠ cur → m.holder l = some t → h l = some t) :
    Step lockOf m cur { m with parked := update m.parked cur b, holder := h }
  /-- The thread takes its semaphore. -/
  | take (l : ℓ) (hp : m.phase cur = .waits l) (hrun : m.parked cur = false)
    (hv : m.value cur ≠ 0) :
    Step lockOf m cur { m with
      phase := update m.phase cur (.reacquires l)
      value := update m.value cur (m.value cur - 1) }
  | done (k : κ) (hp : m.phase cur = .broadcasts k) (hl : m.lists k = []) :
    Step lockOf m cur { m with phase := update m.phase cur .other }
  | pass (k : κ) (hp : m.phase cur = .broadcasts k) (hl : m.lists k ≠ []) :
    Step lockOf m cur { m with phase := update m.phase cur (.signals k true) }
  | signalNone (k : κ) (b : Bool) (hp : m.phase cur = .signals k b) (hl : m.lists k = []) :
    Step lockOf m cur { m with phase := update m.phase cur (.after k b) }
  | signal (k : κ) (b : Bool) (w : α) (ws : List α) (hp : m.phase cur = .signals k b)
    (hl : m.lists k = w :: ws) (hparked : ws ≠ [] → ∀ u ∈ m.lists k, m.parked u = true) :
    Step lockOf m cur { m with phase := update m.phase cur (.scans k w ws b) }
  | scan (k : κ) (b : Bool) (best w : α) (ws : List α)
    (hp : m.phase cur = .scans k best (w :: ws) b) :
    Step lockOf m cur { m with
      phase := update m.phase cur
        (.scans k (if m.rank best < m.rank w then w else best) ws b) }
  | chosen (k : κ) (b : Bool) (w : α) (hp : m.phase cur = .scans k w [] b) :
    Step lockOf m cur { m with phase := update m.phase cur (.ups k w b) }
  | up (k : κ) (b : Bool) (w : α) (v : Nat) (hp : m.phase cur = .ups k w b)
    (hv : m.value w = 0 → v = 1) :
    Step lockOf m cur { m with
      phase := update m.phase cur (.removes k w b)
      value := update m.value w v
      parked := update m.parked w false
      woken := update m.woken cur (m.woken cur ++ [w]) }
  | remove (k : κ) (b : Bool) (w : α) (hp : m.phase cur = .removes k w b) :
    Step lockOf m cur { m with
      phase := update m.phase cur (.after k b)
      lists := update m.lists k ((m.lists k).erase w) }

variable {lockOf : κ → ℓ} {m m' : Monitor α κ ℓ} {cur : α}

theorem removing_update {phase : α → Phase α κ ℓ} {p : Phase α κ ℓ} {k : κ} {w : α}
    (h : ∀ b, phase cur ≠ .removes k w b) :
    Removing (update phase cur p) k w ↔ (∃ b, p = .removes k w b) ∨ Removing phase k w := by
  constructor
  · rintro ⟨t, b, ht⟩
    by_cases heq : t = cur
    · subst heq
      exact Or.inl ⟨b, by simpa using ht⟩
    · exact Or.inr ⟨t, b, by simpa [heq] using ht⟩
  · rintro (⟨b, rfl⟩ | ⟨t, b, ht⟩)
    · exact ⟨cur, b, by simp⟩
    · have hne : t ≠ cur := fun heq => h b (heq ▸ ht)
      exact ⟨t, b, by simpa [hne] using ht⟩

omit [DecidableEq α] in
/-- Only the thread that holds the lock of a condition takes threads off its
    list. -/
theorem Ok.removing_holder (hok : m.Ok lockOf) {k : κ} {w : α} (h : Removing m.phase k w) :
    ∃ t b, m.holder (lockOf k) = some t ∧ m.phase t = .removes k w b := by
  obtain ⟨t, b, ht⟩ := h
  exact ⟨t, b, hok.signalled t k (by rw [ht]; rfl), ht⟩

theorem Ok.other (hok : m.Ok lockOf) {p : Phase α κ ℓ} {h : ℓ → Option α}
    (hp : m.phase cur = .other ∨
      ∃ l, m.phase cur = .reacquires l ∧ (p = .reacquires l ∨ m.holder l = none))
    (hp' : p = .other ∨ ∃ l, p = .reacquires l)
    (hh : ∀ l t, t ≠ cur → m.holder l = some t → h l = some t) :
    Ok lockOf { m with phase := update m.phase cur p, holder := h } := by
  have hsig := hok.signalled
  have hrem : ∀ k w, Removing (update m.phase cur p) k w ↔ Removing m.phase k w := by
    intro k w
    rw [removing_update (by grind)]
    grind
  constructor
  case enters =>
    have := hok.enters
    grind
  case signalled => grind [Phase.signalled]
  case nodup => exact hok.nodup
  case unique => exact hok.unique
  case listed =>
    have := hok.listed
    have := fun k w => hok.removing_holder (k := k) (w := w)
    grind
  case unlisted =>
    have := hok.unlisted
    grind
  case signals =>
    have := hok.signals
    grind
  case scans =>
    have := hok.scans
    grind
  case ups =>
    have := hok.ups
    grind
  case removes =>
    have := hok.removes
    grind
  case parked =>
    have := hok.parked
    grind

/-- A signaller goes on: nothing but its phase changes. -/
theorem Ok.goOn (hok : m.Ok lockOf) {p : Phase α κ ℓ} {k : κ}
    (hp : m.phase cur = .other ∨ (m.phase cur).signalled = some k)
    (hrem : ∀ k w b, m.phase cur ≠ .removes k w b ∧ p ≠ .removes k w b)
    (hhold : m.holder (lockOf k) = some cur)
    (hp' : p = .other ∨ p = .enters k ∨ p.signalled = some k)
    (hsignals : ∀ k, p = .signals k true → m.lists k ≠ [])
    (hscans : ∀ k best rest b, p = .scans k best rest b →
      best ∈ m.lists k ∧ (∀ u ∈ rest, u ∈ m.lists k) ∧
        (rest ≠ [] → ∀ u ∈ m.lists k, m.parked u = true))
    (hups : ∀ k w b, p = .ups k w b → w ∈ m.lists k) :
    Ok lockOf { m with phase := update m.phase cur p } := by
  have hsig := hok.signalled
  have hrem' : ∀ k w, Removing (update m.phase cur p) k w ↔ Removing m.phase k w := by
    intro k w
    rw [removing_update (by grind)]
    grind
  have hcur : ∀ l, m.phase cur ≠ .waits l ∧ m.phase cur ≠ .reacquires l := by
    grind [Phase.signalled]
  have hcur' : ∀ l, p ≠ .waits l := by grind [Phase.signalled]
  constructor
  case enters =>
    have := hok.enters
    grind [Phase.signalled]
  case signalled => grind [Phase.signalled]
  case nodup => exact hok.nodup
  case unique => exact hok.unique
  case listed =>
    have := hok.listed
    grind
  case unlisted =>
    have := hok.unlisted
    grind
  case signals =>
    have := hok.signals
    grind
  case scans =>
    have := hok.scans
    grind
  case ups =>
    have := hok.ups
    grind
  case removes =>
    have := hok.removes
    grind
  case parked =>
    have := hok.parked
    grind

/-- The thread releases its lock, or parks on its semaphore. -/
theorem Ok.wait (hok : m.Ok lockOf) {l : ℓ} {b : Bool} {h : ℓ → Option α}
    (hp : m.phase cur = .waits l) (hrun : m.parked cur = false)
    (hb : b = true → m.value cur = 0)
    (hh : ∀ l t, t ≠ cur → m.holder l = some t → h l = some t) :
    Ok lockOf { m with parked := update m.parked cur b, holder := h } := by
  have hsig := hok.signalled
  constructor
  case enters =>
    have := hok.enters
    grind
  case signalled => grind [Phase.signalled]
  case nodup => exact hok.nodup
  case unique => exact hok.unique
  case listed =>
    have := hok.listed
    grind
  case unlisted =>
    have := hok.unlisted
    grind
  case signals => exact hok.signals
  case scans =>
    have := hok.scans
    grind
  case ups => exact hok.ups
  case removes => exact hok.removes
  case parked =>
    have := hok.parked
    grind

/-- The thread takes its semaphore: it has been signalled. -/
theorem Ok.take (hok : m.Ok lockOf) {l : ℓ} (hp : m.phase cur = .waits l)
    (hrun : m.parked cur = false) (hv : m.value cur ≠ 0) :
    Ok lockOf { m with
      phase := update m.phase cur (.reacquires l)
      value := update m.value cur (m.value cur - 1) } := by
  have hsig := hok.signalled
  have hrem : ∀ k w, Removing (update m.phase cur (.reacquires l)) k w ↔
      Removing m.phase k w := by
    intro k w
    rw [removing_update (by grind)]
    grind
  constructor
  case enters =>
    have := hok.enters
    grind
  case signalled => grind [Phase.signalled]
  case nodup => exact hok.nodup
  case unique => exact hok.unique
  case listed =>
    have := hok.listed
    grind
  case unlisted =>
    have := hok.unlisted
    grind
  case signals =>
    have := hok.signals
    grind
  case scans =>
    have := hok.scans
    grind
  case ups =>
    have := hok.ups
    grind
  case removes =>
    have := hok.removes
    grind
  case parked =>
    have := hok.parked
    grind

omit [DecidableEq α] in
/-- A thread that enters is on no list. -/
theorem Ok.enters_unlisted (hok : m.Ok lockOf) {k k' : κ} (hp : m.phase cur = .enters k) :
    cur ∉ m.lists k' := by
  intro hmem
  rcases hok.listed k' cur hmem with ⟨h, -⟩ | ⟨-, ⟨h, -⟩ | h⟩ <;> rw [hp] at h <;> cases h

theorem Ok.enter [DecidableEq κ] (hok : m.Ok lockOf) {k : κ} (hp : m.phase cur = .enters k) :
    Ok lockOf { m with
      phase := update m.phase cur (.waits (lockOf k))
      lists := update m.lists k (m.lists k ++ [cur])
      value := update m.value cur 0 } := by
  have hsig := hok.signalled
  have hhold := hok.enters cur k hp
  have hun : ∀ k', cur ∉ m.lists k' := fun _ => hok.enters_unlisted hp
  have hrem : ∀ k' w, Removing (update m.phase cur (.waits (lockOf k))) k' w ↔
      Removing m.phase k' w := by
    intro k w
    rw [removing_update (by grind)]
    grind
  have hmem : ∀ k' w, w ∈ update m.lists k (m.lists k ++ [cur]) k' ↔
      w ∈ m.lists k' ∨ k' = k ∧ w = cur := by
    intro k' w
    by_cases heq : k' = k
    · subst heq
      simp
    · simp [heq]
  have hidle : ∀ t, (m.phase t).signalled ≠ some k := by grind [Phase.signalled]
  constructor
  case enters =>
    have := hok.enters
    grind
  case signalled => grind [Phase.signalled]
  case nodup =>
    intro k'
    have := hok.nodup k'
    by_cases heq : k' = k
    · subst heq
      show (update m.lists k' (m.lists k' ++ [cur]) k').Nodup
      rw [update_self, ← List.concat_eq_append]
      exact this.concat (hun k')
    · simpa [heq] using this
  case unique =>
    have := hok.unique
    grind
  case listed =>
    have := hok.listed
    have := fun k w => hok.removing_holder (k := k) (w := w)
    have := hok.removes
    grind
  case unlisted =>
    have := hok.unlisted
    grind
  case signals =>
    have := hok.signals
    grind
  case scans =>
    have := hok.scans
    grind [Phase.signalled]
  case ups =>
    have := hok.ups
    grind
  case removes =>
    have := hok.removes
    grind
  case parked =>
    have := hok.parked
    grind

/-- The chosen thread is signalled. -/
theorem Ok.up (hok : m.Ok lockOf) {k : κ} {b : Bool} {w : α} {v : Nat}
    (hp : m.phase cur = .ups k w b) (hv : m.value w = 0 → v = 1) :
    Ok lockOf { m with
      phase := update m.phase cur (.removes k w b)
      value := update m.value w v
      parked := update m.parked w false } := by
  have hsig := hok.signalled
  have hhold := hsig cur k (by rw [hp]; rfl)
  have hrem : ∀ k' u, Removing (update m.phase cur (.removes k w b)) k' u ↔
      k' = k ∧ u = w ∨ Removing m.phase k' u := by
    intro k' u
    rw [removing_update (by grind)]
    simp only [Phase.removes.injEq]
    grind
  have hnot : ∀ u, ¬Removing m.phase k u := by
    intro u hu
    obtain ⟨t, b', ht, ht'⟩ := hok.removing_holder hu
    grind
  have hmem := hok.ups cur k w b hp
  have hw := hok.listed k w hmem
  constructor
  case enters =>
    have := hok.enters
    grind
  case signalled => grind [Phase.signalled]
  case nodup => exact hok.nodup
  case unique => exact hok.unique
  case listed =>
    have := hok.listed
    have := hok.unique
    grind
  case unlisted =>
    have := hok.unlisted
    grind
  case signals =>
    have := hok.signals
    grind
  case scans =>
    have := hok.scans
    have := hok.unique
    grind [Phase.signalled]
  case ups =>
    have := hok.ups
    grind
  case removes =>
    have := hok.removes
    grind
  case parked =>
    have := hok.parked
    grind

theorem Ok.remove [DecidableEq κ] (hok : m.Ok lockOf) {k : κ} {b : Bool} {w : α}
    (hp : m.phase cur = .removes k w b) :
    Ok lockOf { m with
      phase := update m.phase cur (.after k b)
      lists := update m.lists k ((m.lists k).erase w) } := by
  have hsig := hok.signalled
  have hhold := hsig cur k (by rw [hp]; rfl)
  have hafter : (Phase.after k b : Phase α κ ℓ) = .other ∨
      (Phase.after k b : Phase α κ ℓ) = .broadcasts k := by
    cases b
    · exact Or.inl rfl
    · exact Or.inr rfl
  have honly : ∀ k' u, Removing (update m.phase cur (.after k b)) k' u ↔
      Removing m.phase k' u ∧ ¬(k' = k ∧ u = w) := by
    intro k' u
    by_cases heq : k' = k
    · have hcur : Removing m.phase k' u → u = w := by
        intro hu
        obtain ⟨t, b', ht, ht'⟩ := hok.removing_holder hu
        grind
      have hno : ¬Removing (update m.phase cur (.after k b)) k' u := by
        rintro ⟨t, b', ht⟩
        have := hsig t k'
        grind [Phase.signalled]
      grind
    · rw [removing_update (by grind)]
      grind
  have hmem : ∀ k' u, u ∈ update m.lists k ((m.lists k).erase w) k' ↔
      u ∈ m.lists k' ∧ ¬(k' = k ∧ u = w) := by
    intro k' u
    by_cases heq : k' = k
    · subst heq
      simp [(hok.nodup k').mem_erase_iff, and_comm]
    · simp [heq]
  have hw := hok.listed k w (hok.removes cur k w b hp)
  have hidle : ∀ t, t ≠ cur → (m.phase t).signalled ≠ some k := by grind [Phase.signalled]
  constructor
  case enters =>
    have := hok.enters
    grind
  case signalled => grind [Phase.signalled]
  case nodup =>
    intro k'
    by_cases heq : k' = k
    · subst heq
      simpa using (hok.nodup k').erase w
    · simpa [heq] using hok.nodup k'
  case unique =>
    have := hok.unique
    grind
  case listed =>
    have := hok.listed
    grind
  case unlisted =>
    have := hok.unlisted
    have : Removing m.phase k w := ⟨cur, b, hp⟩
    grind
  case signals =>
    have := hok.signals
    grind [Phase.signalled]
  case scans =>
    have := hok.scans
    grind [Phase.signalled]
  case ups =>
    have := hok.ups
    grind [Phase.signalled]
  case removes =>
    have := hok.removes
    grind [Phase.signalled]
  case parked =>
    have := hok.parked
    grind

omit [DecidableEq α] in
/-- Ranks and the record of calls do not matter here. -/
theorem Ok.ghost (hok : m.Ok lockOf) (r : α → Int) (z : α → Option Call) (x y : α → List α) :
    Ok lockOf { m with rank := r, last := z, before := x, woken := y } :=
  ⟨hok.enters, hok.signalled, hok.nodup, hok.unique, hok.listed, hok.unlisted, hok.signals,
    hok.scans, hok.ups, hok.removes, hok.parked⟩

/-- A step keeps the monitor in order. -/
theorem Ok.step [DecidableEq κ] (hok : m.Ok lockOf) (hs : Step lockOf m cur m') : m'.Ok lockOf := by
  cases hs with
  | other p h hp hp' hh => exact hok.other hp hp' hh
  | call k p c hp hp' hh =>
    have h : Ok lockOf { m with phase := update m.phase cur p } :=
      hok.goOn (Or.inl hp) (by grind) hh (by grind [Phase.signalled]) (by grind) (by grind)
        (by grind)
    exact h.ghost _ _ _ _
  | enter k hp => exact hok.enter hp
  | wait l b h hp hrun hb hh => exact hok.wait hp hrun hb hh
  | take l hp hrun hv => exact hok.take hp hrun hv
  | done k hp hl =>
    have hsig : (m.phase cur).signalled = some k := by rw [hp]; rfl
    exact hok.goOn (Or.inr hsig) (by grind) (hok.signalled cur k hsig) (Or.inl rfl) (by simp)
      (by simp) (by simp)
  | pass k hp hl =>
    have hsig : (m.phase cur).signalled = some k := by rw [hp]; rfl
    exact hok.goOn (Or.inr hsig) (by grind) (hok.signalled cur k hsig) (Or.inr (Or.inr rfl))
      (by grind) (by simp) (by simp)
  | signalNone k b hp hl =>
    have hsig : (m.phase cur).signalled = some k := by rw [hp]; rfl
    exact hok.goOn (Or.inr hsig) (by grind [Phase.after]) (hok.signalled cur k hsig)
      (by cases b <;> grind [Phase.after, Phase.signalled]) (by grind [Phase.after])
      (by grind [Phase.after]) (by grind [Phase.after])
  | signal k b w ws hp hl hparked =>
    have hsig : (m.phase cur).signalled = some k := by rw [hp]; rfl
    exact hok.goOn (Or.inr hsig) (by grind) (hok.signalled cur k hsig) (Or.inr (Or.inr rfl))
      (by simp) (by grind) (by simp)
  | scan k b best w ws hp =>
    have hsig : (m.phase cur).signalled = some k := by rw [hp]; rfl
    have hscans := hok.scans cur k best (w :: ws) b hp
    exact hok.goOn (Or.inr hsig) (by grind) (hok.signalled cur k hsig) (Or.inr (Or.inr rfl))
      (by simp) (by grind) (by simp)
  | chosen k b w hp =>
    have hsig : (m.phase cur).signalled = some k := by rw [hp]; rfl
    have hscans := hok.scans cur k w [] b hp
    exact hok.goOn (Or.inr hsig) (by grind) (hok.signalled cur k hsig) (Or.inr (Or.inr rfl))
      (by simp) (by simp) (by grind)
  | up k b w v hp hv => exact (hok.up hp hv).ghost _ _ _ _
  | remove k b w hp => exact hok.remove hp

/-! ## The other threads -/

/-- The others keep their phase and their record. -/
theorem Step.others [DecidableEq κ] (hs : Step lockOf m cur m') {t : α} (ht : t ≠ cur) :
    m'.phase t = m.phase t ∧ m'.last t = m.last t ∧ m'.before t = m.before t ∧
      m'.woken t = m.woken t := by
  cases hs <;> simp [ht]

theorem Step.rank [DecidableEq κ] (hs : Step lockOf m cur m') : m'.rank = m.rank := by
  cases hs <;> rfl

/-- The list of a condition changes only in steps of the thread that holds its
    lock. -/
theorem Ok.lists_kept [DecidableEq κ] (hok : m.Ok lockOf) (hs : Step lockOf m cur m') {t : α}
    {k : κ} (ht : t ≠ cur) (hsig : (m.phase t).signalled = some k) : m'.lists k = m.lists k := by
  have hhold := hok.signalled t k hsig
  cases hs with
  | enter k' hp =>
    have := hok.enters cur k' hp
    grind
  | remove k' b w hp =>
    have := hok.signalled cur k' (by rw [hp]; rfl)
    grind
  | _ => rfl

/-! ## The chosen thread -/

/-- The thread chosen so far has the greatest rank. -/
structure Ordered (m : Monitor α κ ℓ) : Prop where
  scans : ∀ t k best rest b, m.phase t = .scans k best rest b →
    ∀ u ∈ m.lists k, u ∈ rest ∨ m.rank u ≤ m.rank best
  ups : ∀ t k w b, m.phase t = .ups k w b → ∀ u ∈ m.lists k, m.rank u ≤ m.rank w

omit [DecidableEq α] in
/-- Ranks change, but not those of threads that are being compared. -/
theorem Ordered.rerank (h : m.Ordered) (r : α → Int)
    (hr : ∀ t k, (m.phase t).chooses = some k → m.lists k = [] ∨ (∃ u, m.lists k = [u]) ∨
      ∀ u ∈ m.lists k, r u = m.rank u) (hok : m.Ok lockOf) : Ordered { m with rank := r } := by
  constructor
  case scans =>
    intro t k best rest b hp u hu
    have := h.scans t k best rest b hp u hu
    have := hok.scans t k best rest b hp
    have := hr t k (by rw [show m.phase t = _ from hp]; rfl)
    grind
  case ups =>
    intro t k w b hp u hu
    have := h.ups t k w b hp u hu
    have := hok.ups t k w b hp
    have := hr t k (by rw [show m.phase t = _ from hp]; rfl)
    grind

theorem Ordered.step [DecidableEq κ] (h : m.Ordered) (hok : m.Ok lockOf)
    (hs : Step lockOf m cur m') : m'.Ordered := by
  have hrank := hs.rank
  have hothers := fun t ht => (hs.others (t := t) ht).1
  have hlists := fun t k ht hsig => hok.lists_kept hs (t := t) (k := k) ht hsig
  have hscans := h.scans
  have hups := h.ups
  constructor
  all_goals
    intro t k
    intros
    by_cases ht : t = cur
    · subst ht
      cases hs <;> grind [Phase.after]
    · have := hlists t k ht
      grind [Phase.signalled]

/-! ## The threads that have been signalled -/

/-- The threads `y` a caller has signalled and its list make up the list `x` it
    found. -/
def tally (x y : List α) (lists : κ → List α) : Phase α κ ℓ → Prop
  | .signals k b | .scans k _ _ b | .ups k _ b => x.Perm (y ++ lists k) ∧ (b = false → y = [])
  | .removes k w b => x.Perm (y ++ (lists k).erase w) ∧ (b = false → y = [w])
  | .broadcasts k => x.Perm (y ++ lists k)
  | _ => True

/-- What a thread has signalled in its last call, during the call and after it. -/
structure Counts (lists : κ → List α) (p : Phase α κ ℓ) (o : Option Call) (x y : List α) :
    Prop where
  tally : tally x y lists p
  nodup : x.Nodup
  last : ∀ c, p.call = some c → o = some c
  signal : p.call = none → o = some .signal → x = [] ∧ y = [] ∨ ∃ w ∈ x, y = [w]
  broadcast : p.call = none → o = some .broadcast → x.Perm y

section

variable {lists lists' : κ → List α} {p q : Phase α κ ℓ} {o : Option Call} {x y y' : List α}

theorem tally_of_call_none (h : p.call = none) : tally x y lists p := by
  cases p <;> first | exact trivial | cases h

theorem tally_congr (hl : ∀ k, p.signalled = some k → lists' k = lists k)
    (h : tally x y lists p) : tally x y lists' p := by
  cases p <;> simp_all [tally, Phase.signalled]

/-- The thread is in no call. -/
theorem Counts.idle (h : Counts lists p o x y) (hp : p.call = none) (hq : q.call = none) :
    Counts lists' q o x y where
  tally := tally_of_call_none hq
  nodup := h.nodup
  last := fun c hc => by rw [hq] at hc; cases hc
  signal := fun _ => h.signal hp
  broadcast := fun _ => h.broadcast hp

/-- The thread goes on in its call. -/
theorem Counts.goOn (h : Counts lists p o x y) {c : Call} (hp : p.call = some c)
    (hq : q.call = some c) (ht : Monitor.tally x y' lists' q) : Counts lists' q o x y' where
  tally := ht
  nodup := h.nodup
  last := fun c' hc => by
    rw [hq] at hc
    rw [← hc]
    exact h.last c hp
  signal := fun hc => by rw [hq] at hc; cases hc
  broadcast := fun hc => by rw [hq] at hc; cases hc

theorem Counts.endSignal (h : Counts lists p o x y) (hp : p.call = some .signal)
    (hend : x = [] ∧ y = [] ∨ ∃ w ∈ x, y = [w]) : Counts lists' (.other : Phase α κ ℓ) o x y where
  tally := trivial
  nodup := h.nodup
  last := fun c hc => by cases hc
  signal := fun _ _ => hend
  broadcast := fun _ ho => by
    rw [h.last _ hp] at ho
    cases ho

theorem Counts.endBroadcast (h : Counts lists p o x y) (hp : p.call = some .broadcast)
    (hend : x.Perm y) : Counts lists' (.other : Phase α κ ℓ) o x y where
  tally := trivial
  nodup := h.nodup
  last := fun c hc => by cases hc
  signal := fun _ ho => by
    rw [h.last _ hp] at ho
    cases ho
  broadcast := fun _ _ => hend

end

theorem perm_move_erase {x y l : List α} {w : α} (h : x.Perm (y ++ l))
    (hw : w ∈ l) : x.Perm ((y ++ [w]) ++ l.erase w) := by
  refine h.trans ?_
  rw [List.append_assoc]
  exact (List.perm_cons_erase hw).append_left y

/-- What a caller has signalled, and the list, make up the list it found. -/
def Counted (m : Monitor α κ ℓ) : Prop :=
  ∀ t, Counts m.lists (m.phase t) (m.last t) (m.before t) (m.woken t)

/-- A step keeps the record of the thread that takes it. -/
theorem Counted.own [DecidableEq κ] (h : m.Counted) (hok : m.Ok lockOf)
    (hs : Step lockOf m cur m') :
    Counts m'.lists (m'.phase cur) (m'.last cur) (m'.before cur) (m'.woken cur) := by
  have hcur := h cur
  cases hs with
  | other p l hp hp' hh =>
    simp only [update_self]
    rcases hp with hp | ⟨_, hp, -⟩ <;> rw [hp] at hcur <;>
      rcases hp' with rfl | ⟨_, rfl⟩ <;> exact hcur.idle rfl rfl
  | call k p c hp hp' hh =>
    simp only [update_self]
    rcases hp' with ⟨rfl, rfl⟩ | ⟨rfl, rfl⟩ | ⟨rfl, rfl⟩
    · exact ⟨trivial, hok.nodup k, nofun, nofun, nofun⟩
    · exact ⟨⟨List.Perm.refl _, fun _ => rfl⟩, hok.nodup k, fun c hc => hc, nofun, nofun⟩
    · exact ⟨List.Perm.refl _, hok.nodup k, fun c hc => hc, nofun, nofun⟩
  | enter k hp =>
    simp only [update_self]
    rw [hp] at hcur
    exact hcur.idle rfl rfl
  | wait l b h hp hrun hb hh => exact hcur
  | take l hp hrun hv =>
    simp only [update_self]
    rw [hp] at hcur
    exact hcur.idle rfl rfl
  | done k hp hl =>
    simp only [update_self]
    rw [hp] at hcur
    have hperm : (m.before cur).Perm (m.woken cur ++ m.lists k) := hcur.tally
    rw [hl, List.append_nil] at hperm
    exact hcur.endBroadcast rfl hperm
  | pass k hp hl =>
    simp only [update_self]
    rw [hp] at hcur
    exact hcur.goOn rfl rfl ⟨hcur.tally, nofun⟩
  | signalNone k b hp hl =>
    simp only [update_self]
    rw [hp] at hcur
    obtain ⟨hperm, hnil⟩ := hcur.tally
    cases b with
    | false =>
      -- nobody waits, and nobody has been signalled
      rw [hl, hnil rfl] at hperm
      exact hcur.endSignal rfl (Or.inl ⟨hperm.eq_nil, hnil rfl⟩)
    | true => exact hcur.goOn rfl rfl hperm
  | signal k b w ws hp hl hparked =>
    simp only [update_self]
    rw [hp] at hcur
    exact hcur.goOn rfl rfl hcur.tally
  | scan k b best w ws hp =>
    simp only [update_self]
    rw [hp] at hcur
    exact hcur.goOn rfl rfl hcur.tally
  | chosen k b w hp =>
    simp only [update_self]
    rw [hp] at hcur
    exact hcur.goOn rfl rfl hcur.tally
  | up k b w v hp hv =>
    simp only [update_self]
    have hmem := hok.ups cur k w b hp
    rw [hp] at hcur
    obtain ⟨hperm, hnil⟩ := hcur.tally
    refine hcur.goOn rfl rfl ⟨perm_move_erase hperm hmem, fun hb => ?_⟩
    rw [hnil hb, List.nil_append]
  | remove k b w hp =>
    simp only [update_self]
    rw [hp] at hcur
    obtain ⟨hperm, hone⟩ := hcur.tally
    cases b with
    | false =>
      rw [hone rfl] at hperm
      exact hcur.endSignal rfl (Or.inr ⟨w, hperm.mem_iff.mpr (by simp), hone rfl⟩)
    | true =>
      refine hcur.goOn rfl rfl ?_
      show (m.before cur).Perm (m.woken cur ++ update m.lists k _ k)
      rw [update_self]
      exact hperm

theorem Counted.step [DecidableEq κ] (h : m.Counted) (hok : m.Ok lockOf)
    (hs : Step lockOf m cur m') : m'.Counted := by
  intro t
  by_cases ht : t = cur
  · subst ht
    exact h.own hok hs
  · obtain ⟨hphase, hlast, hbefore, hwoken⟩ := hs.others ht
    rw [hphase, hlast, hbefore, hwoken]
    have hl := fun k hsig => hok.lists_kept hs (t := t) (k := k) ht hsig
    exact ⟨tally_congr hl (h t).tally, (h t).nodup, (h t).last, (h t).signal, (h t).broadcast⟩

/-! ## `broadcast` ends -/

/-- The number of steps of the loop of `broadcast` with `n` threads on the
    list. -/
def loopWork : Nat → Nat
  | 0 => 1
  | n + 1 => n + 5 + loopWork n

/-- The number of steps a thread in `broadcast` still has to take. -/
def work (m : Monitor α κ ℓ) (t : α) : Nat :=
  match m.phase t with
  | .broadcasts k => loopWork (m.lists k).length
  | .signals k true => (m.lists k).length + 3 + loopWork ((m.lists k).length - 1)
  | .scans k _ rest true => rest.length + 3 + loopWork ((m.lists k).length - 1)
  | .ups k _ true => 2 + loopWork ((m.lists k).length - 1)
  | .removes k _ true => 1 + loopWork ((m.lists k).length - 1)
  | _ => 0

/-- Steps of others do not bring a thread back. -/
theorem Ok.work_other [DecidableEq κ] (hok : m.Ok lockOf) (hs : Step lockOf m cur m') {t : α}
    (ht : t ≠ cur) : m'.work t = m.work t := by
  have hlists := fun k hsig => hok.lists_kept hs (t := t) (k := k) ht hsig
  simp only [work, (hs.others ht).1]
  split <;> simp_all [Phase.signalled]

/-- A step other than a call does not lead into `broadcast`. -/
theorem work_zero [DecidableEq κ] (hs : Step lockOf m cur m')
    (hstay : m.phase cur = .other → m'.phase cur = .other) (hwork : m.work cur = 0) :
    m'.work cur = 0 := by
  cases hs with
  | other p h hp hp' => rcases hp' with rfl | ⟨l, rfl⟩ <;> simp [work]
  | call k p c hp hp' =>
    have := hstay hp
    simp_all [work]
  | enter | take | done => simp [work]
  | wait l b h hp => simp [work, hp]
  | pass k hp hl =>
    obtain ⟨w, ws, hws⟩ := List.exists_cons_of_ne_nil hl
    simp [work, hp, hws, loopWork] at hwork
  | signalNone k b hp =>
    cases b
    · simp [work, Phase.after]
    · simp [work, hp] at hwork
  | signal k b w ws hp =>
    cases b
    · simp [work]
    · simp [work, hp] at hwork
  | scan k b best w ws hp =>
    cases b
    · simp [work]
    · simp [work, hp] at hwork
  | chosen k b w hp =>
    cases b
    · simp [work]
    · simp [work, hp] at hwork
  | up k b w v hp =>
    cases b
    · simp [work]
    · simp [work, hp] at hwork
  | remove k b w hp =>
    cases b
    · simp [work, Phase.after]
    · simp [work, hp] at hwork

theorem Ok.work_step [DecidableEq κ] (hok : m.Ok lockOf) (hs : Step lockOf m cur m')
    (hwork : m.work cur ≠ 0) : m'.work cur + 1 = m.work cur := by
  have hsignals := hok.signals cur
  cases hs with
  | done k hp hl => simp [work, hp, hl, loopWork]
  | pass k hp hl =>
    obtain ⟨w, ws, hws⟩ := List.exists_cons_of_ne_nil hl
    simp [work, hp, hws, loopWork]
    omega
  | signalNone k b hp hl =>
    cases b
    · simp [work, hp] at hwork
    · exact absurd hl (hsignals k hp)
  | signal k b w ws hp hl hparked =>
    cases b
    · simp [work, hp] at hwork
    · simp [work, hp, hl]
      omega
  | scan k b best w ws hp =>
    cases b
    · simp [work, hp] at hwork
    · simp [work, hp]
      omega
  | chosen k b w hp =>
    cases b
    · simp [work, hp] at hwork
    · simp [work, hp]
      omega
  | up k b w v hp hv =>
    cases b
    · simp [work, hp] at hwork
    · simp [work, hp]
      omega
  | remove k b w hp =>
    cases b
    · simp [work, hp] at hwork
    · have hmem := hok.removes cur k w true hp
      simp [work, hp, Phase.after, List.length_erase_of_mem hmem]
      omega
  | other p h hp =>
    rcases hp with hp | ⟨l, hp, -⟩ <;> simp [work, hp] at hwork
  | _ => simp [work, *] at hwork

end Monitor

end Pintos.Base
