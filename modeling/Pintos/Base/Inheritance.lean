/-
  Pintos.Base.Inheritance

  Priority inheritance.  A thread that waits for a lock passes its rank on to the
  holder of the lock, to the holder of the lock that one waits for, and so on.
  While a rank is being passed on, the threads behind that point of the chain are
  up to date and the next holder is not.

  Apart from that, and from threads whose own rank is being changed, a thread has
  the greatest of its own rank and the ranks of the threads that wait for a lock
  it holds.
-/

import Mathlib

namespace Pintos.Base

/-- Threads `α` that wait for locks `ℓ`. -/
structure Inherit (α ℓ : Type) where
  rank : α → Int
  own : α → Int
  /-- The lock a thread waits for. -/
  waits : α → Option ℓ
  holder : ℓ → Option α
  /-- A thread passes its rank on, and has come to a second thread. -/
  passing : Option (α × α)

namespace Inherit

variable {α ℓ : Type}

/-- `stale` are the threads whose own rank has changed. -/
structure Ok (stale : α → Prop) (m : Inherit α ℓ) : Prop where
  /-- A holder has at least the rank of the threads that wait, except the next
      holder of a chain. -/
  above : ∀ l w h, m.holder l = some h → m.waits w = some l →
    m.rank w ≤ m.rank h ∨ ∃ c u, m.passing = some (c, u) ∧ m.waits u = some l ∧ m.rank w ≤ m.rank c
  reached : ∀ c u, m.passing = some (c, u) → m.rank c ≤ m.rank u
  /-- Somebody stands for the rank of a thread. -/
  backed : ∀ t, m.rank t ≤ m.own t ∨ stale t ∨
    ∃ l w, m.holder l = some t ∧ m.waits w = some l ∧ m.rank t ≤ m.rank w
  own : ∀ t, m.own t ≤ m.rank t ∨ stale t

variable {stale stale' : α → Prop} {m : Inherit α ℓ}

theorem Ok.mono (h : m.Ok stale) (hs : ∀ t, stale t → stale' t) : m.Ok stale' :=
  ⟨h.above, h.reached, fun t => (h.backed t).imp_right (Or.imp_left (hs t)),
    fun t => (h.own t).imp_right (hs t)⟩

/-- Where nothing is under way, the rank of a thread is the greatest of its own
    and those of the threads that wait for it. -/
theorem Ok.isGreatest (h : m.Ok stale) (hpass : m.passing = none) {t : α} (ht : ¬stale t) :
    IsGreatest (insert (m.own t) {p | ∃ l w, m.holder l = some t ∧ m.waits w = some l ∧
      p = m.rank w}) (m.rank t) := by
  have hown := (h.own t).resolve_right ht
  constructor
  · rcases h.backed t with hle | hst | ⟨l, w, hl, hw, hle⟩
    · exact Or.inl (Int.le_antisymm hle hown)
    · exact absurd hst ht
    · have habove : m.rank w ≤ m.rank t := by
        rcases h.above l w t hl hw with habove | ⟨c, u, hp, -⟩
        · exact habove
        · rw [hpass] at hp
          cases hp
      exact Or.inr ⟨l, w, hl, hw, Int.le_antisymm hle habove⟩
  · rintro p (rfl | ⟨l, w, hl, hw, rfl⟩)
    · exact hown
    · rcases h.above l w t hl hw with habove | ⟨c, u, hp, -⟩
      · exact habove
      · rw [hpass] at hp
        cases hp

/-! ## Steps -/

/-- A thread begins to pass its rank on. -/
theorem Ok.begin (h : m.Ok stale) (hpass : m.passing = none) (c : α) :
    Ok stale { m with passing := some (c, c) } := by
  have habove := h.above
  have hreached := h.reached
  exact ⟨by grind, by grind, h.backed, h.own⟩

variable [DecidableEq α]

/-- A thread begins to wait for a held lock, and to pass its rank on. -/
theorem Ok.enter (h : m.Ok stale) (hpass : m.passing = none) {c : α} (hc : m.waits c = none)
    (l : ℓ) :
    Ok stale { m with waits := Function.update m.waits c (some l), passing := some (c, c) } := by
  have habove := h.above
  have hbacked := h.backed
  constructor
  case above => grind
  case reached => grind
  case backed =>
    intro t
    rcases hbacked t with hle | hst | ⟨l', w, hl, hw, hle⟩
    · exact Or.inl hle
    · exact Or.inr (Or.inl hst)
    · have hne : w ≠ c := by
        rintro rfl
        rw [hc] at hw
        cases hw
      exact Or.inr (Or.inr ⟨l', w, hl, by simpa [hne] using hw, hle⟩)
  case own => exact h.own

/-- The rank comes to the next holder. -/
theorem Ok.raise (h : m.Ok stale) {c u d : α} {l : ℓ} (hpass : m.passing = some (c, u))
    (hu : m.waits u = some l) (hd : m.holder l = some d) (hlt : m.rank d < m.rank c) :
    Ok stale { m with
      rank := Function.update m.rank d (m.rank c), passing := some (c, d) } := by
  have habove := h.above
  have hreached := h.reached c u hpass
  have hne : c ≠ d := by
    rintro rfl
    exact lt_irrefl _ hlt
  -- no rank falls
  have hmono : ∀ t, m.rank t ≤ Function.update m.rank d (m.rank c) t := by
    intro t
    by_cases ht : t = d
    · subst ht
      simpa using le_of_lt hlt
    · simp [ht]
  constructor
  case above => grind
  case reached => grind
  case backed =>
    intro t
    by_cases ht : t = d
    · subst ht
      refine Or.inr (Or.inr ⟨l, u, hd, hu, ?_⟩)
      grind
    · rcases h.backed t with hle | hst | ⟨l', w, hl, hw, hle⟩
      · exact Or.inl (by simpa [ht] using hle)
      · exact Or.inr (Or.inl hst)
      · exact Or.inr (Or.inr ⟨l', w, hl, hw, by simpa [ht] using le_trans hle (hmono w)⟩)
  case own =>
    intro t
    exact (h.own t).imp_left fun hle => le_trans hle (hmono t)

omit [DecidableEq α] in
/-- The next holder has the rank already, or there is none. -/
theorem Ok.finish (h : m.Ok stale) {c u : α} (hpass : m.passing = some (c, u))
    (hdone : ∀ l d, m.waits u = some l → m.holder l = some d → m.rank c ≤ m.rank d) :
    Ok stale { m with passing := none } := by
  have habove := h.above
  exact ⟨by grind, by simp, h.backed, h.own⟩

section

variable (h : m.Ok stale) (hpass : m.passing = none)

include h hpass

/-- A thread gets a lock that nobody of a greater rank waits for. -/
theorem Ok.take [DecidableEq ℓ] {c : α} {l : ℓ}
    (hfree : m.holder l = none) (hc : ∀ k, m.waits c = some k → k = l)
    (hle : ∀ w, w ≠ c → m.waits w = some l → m.rank w ≤ m.rank c) :
    Ok stale { m with
      waits := Function.update m.waits c none
      holder := Function.update m.holder l (some c)
      passing := none } := by
  have habove := h.above
  constructor
  case above => grind
  case reached => grind
  case backed =>
    intro t
    rcases h.backed t with hle | hst | ⟨l', w, hl, hw, hle⟩
    · exact Or.inl hle
    · exact Or.inr (Or.inl hst)
    · have hl' : l' ≠ l := by
        rintro rfl
        rw [hfree] at hl
        cases hl
      have hne : w ≠ c := by
        rintro rfl
        exact hl' (hc l' hw)
      exact Or.inr (Or.inr ⟨l', w, by simpa [hl'] using hl, by simpa [hne] using hw, hle⟩)
  case own => exact h.own

/-- A thread gives locks up, or not, and computes its rank anew. -/
theorem Ok.update {c : α} (hc : m.waits c = none)
    {k : ℓ → Option α} (hk : ∀ l t, t ≠ c → (k l = some t ↔ m.holder l = some t)) {p : Int}
    (hown : m.own c ≤ p)
    (habove : ∀ l w, k l = some c → m.waits w = some l → m.rank w ≤ p)
    (hbacked : p ≤ m.own c ∨ ∃ l w, k l = some c ∧ m.waits w = some l ∧ p ≤ m.rank w)
    (hstale : ∀ t, t ≠ c → stale t → stale' t) :
    Ok stale' { m with rank := Function.update m.rank c p, holder := k, passing := none } := by
  have hold := h.above
  have hne : ∀ w l, m.waits w = some l → w ≠ c := by
    rintro w l hw rfl
    rw [hc] at hw
    cases hw
  constructor
  case above => grind
  case reached => grind
  case backed =>
    intro t
    by_cases ht : t = c
    · subst ht
      rcases hbacked with hle | ⟨l, w, hl, hw, hle⟩
      · exact Or.inl (by simpa using hle)
      · exact Or.inr (Or.inr ⟨l, w, hl, hw, by simpa [hne w l hw] using hle⟩)
    · rcases h.backed t with hle | hst | ⟨l, w, hl, hw, hle⟩
      · exact Or.inl (by simpa [ht] using hle)
      · exact Or.inr (Or.inl (hstale t ht hst))
      · exact Or.inr (Or.inr ⟨l, w, (hk l t ht).mpr hl, hw, by simpa [ht, hne w l hw] using hle⟩)
  case own =>
    intro t
    by_cases ht : t = c
    · subst ht
      exact Or.inl (by simpa using hown)
    · exact (h.own t).imp (by simp [ht]) (hstale t ht)

/-- The own rank of a stale thread changes. -/
theorem Ok.setOwn {c : α} (hc : stale c) (p : Int) :
    Ok stale { m with own := Function.update m.own c p, passing := none } := by
  have habove := h.above
  refine ⟨by grind, by simp, fun t => ?_, fun t => ?_⟩
  · by_cases ht : t = c
    · exact Or.inr (Or.inl (ht ▸ hc))
    · simpa [ht] using h.backed t
  · by_cases ht : t = c
    · exact Or.inr (ht ▸ hc)
    · simpa [ht] using h.own t

/-- A new thread neither waits nor holds a lock. -/
theorem Ok.create {c : α} (hc : m.waits c = none) (hnone : ∀ l, m.holder l ≠ some c) (p : Int) :
    Ok stale { m with
      rank := Function.update m.rank c p
      own := Function.update m.own c p
      waits := Function.update m.waits c none
      passing := none } := by
  have habove := h.above
  constructor
  case above => grind
  case reached => grind
  case backed =>
    intro t
    by_cases ht : t = c
    · subst ht
      exact Or.inl (by simp)
    · rcases h.backed t with hle | hst | ⟨l, w, hl, hw, hle⟩
      · exact Or.inl (by simpa [ht] using hle)
      · exact Or.inr (Or.inl hst)
      · have hne : w ≠ c := by
          rintro rfl
          rw [hc] at hw
          cases hw
        exact Or.inr (Or.inr ⟨l, w, hl, by simpa [hne] using hw, by simpa [ht, hne] using hle⟩)
  case own =>
    intro t
    by_cases ht : t = c
    · subst ht
      exact Or.inl (by simp)
    · exact (h.own t).imp_left (by simp [ht])

end

end Inherit

end Pintos.Base
