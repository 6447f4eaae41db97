/-
  Pintos.Base.Ledger

  A protocol for resources that are handed around between parties.  A resource
  in use is either mapped at some place, or owned by one party that is setting
  it up or tearing it down.  A table lists resources; a party that takes a
  mapped resource off the table may revoke it: unmap it and own it from then
  on.

  The invariant `Ok` says that no resource is at two places at once, and every
  step of the protocol keeps it.
-/

import Mathlib

namespace Pintos.Base

open Function

/-- What a party does with a resource: it owns it, owns it while the table
    lists it, or revokes it from a place. -/
inductive Role (κ ρ : Type) where
  | idle
  | holding (k : ρ)
  | listed (k : ρ)
  | revoking (p : κ) (k : ρ)

/-- The resource a party owns. -/
def Role.owned {κ ρ : Type} : Role κ ρ → Option ρ
  | .holding k => some k
  | .listed k => some k
  | _ => none

/-- Parties `π`, places `κ` and resources `ρ`. -/
structure Ledger (π κ ρ : Type) where
  used : Set ρ
  map : κ → Option ρ
  table : List ρ
  role : π → Role κ ρ

namespace Ledger

variable {π κ ρ : Type}

/-- The invariant of the protocol. -/
structure Ok (l : Ledger π κ ρ) : Prop where
  map_used : ∀ {p k}, l.map p = some k → k ∈ l.used
  map_inj : ∀ {p q k}, l.map p = some k → l.map q = some k → p = q
  owned_used : ∀ {a k}, (l.role a).owned = some k → k ∈ l.used
  owned_unmapped : ∀ {a k p}, (l.role a).owned = some k → l.map p ≠ some k
  owned_inj : ∀ {a b k}, (l.role a).owned = some k → (l.role b).owned = some k → a = b
  revoking : ∀ {a p k}, l.role a = .revoking p k → l.map p = some k ∧ k ∉ l.table
  revoking_inj : ∀ {a b p q k}, l.role a = .revoking p k → l.role b = .revoking q k → a = b
  nodup : l.table.Nodup
  mem : ∀ {k}, k ∈ l.table → (∃ p, l.map p = some k) ∨ ∃ a, l.role a = .listed k
  listed : ∀ {a k}, l.role a = .listed k → k ∈ l.table

/-- The steps of the protocol, each made by one party. -/
inductive Step [DecidableEq π] [DecidableEq κ] (l : Ledger π κ ρ) : Ledger π κ ρ → Prop
  | alloc {a : π} {k : ρ} (hrole : l.role a = .idle) (hfree : k ∉ l.used) :
      Step l { l with used := insert k l.used, role := update l.role a (.holding k) }
  | free {a : π} {k : ρ} (hrole : l.role a = .holding k) :
      Step l { l with used := l.used \ {k}, role := update l.role a .idle }
  | enter {a : π} {k : ρ} (hrole : l.role a = .holding k) :
      Step l { l with table := l.table ++ [k], role := update l.role a (.listed k) }
  | leave {a : π} {k : ρ} {t : List ρ} (hrole : l.role a = .listed k)
      (htable : l.table.Perm (k :: t)) :
      Step l { l with table := t, role := update l.role a (.holding k) }
  | install {a : π} {k : ρ} {p : κ} (hrole : l.role a = .listed k) (hfree : l.map p = none) :
      Step l { l with
        map := update l.map p (some k), role := update l.role a .idle }
  | pop {a : π} {k : ρ} {p : κ} {t : List ρ} (hrole : l.role a = .idle)
      (htable : l.table.Perm (k :: t)) (hmap : l.map p = some k) :
      Step l { l with table := t, role := update l.role a (.revoking p k) }
  | push {a : π} {k : ρ} {p : κ} (hrole : l.role a = .revoking p k) :
      Step l { l with table := l.table ++ [k], role := update l.role a .idle }
  | revoke {a : π} {k : ρ} {p : κ} (hrole : l.role a = .revoking p k) :
      Step l { l with
        map := update l.map p none, role := update l.role a (.holding k) }

namespace Ok

variable {l : Ledger π κ ρ} {a : π} {k : ρ} {p : κ} {t : List ρ}

/-- The table does not list what a party merely holds. -/
theorem not_mem_of_holding (h : Ok l) (hrole : l.role a = .holding k) : k ∉ l.table := by
  intro hk
  have hown : (l.role a).owned = some k := by rw [hrole]; rfl
  rcases h.mem hk with ⟨p, hp⟩ | ⟨b, hb⟩
  · exact h.owned_unmapped hown hp
  · have hab : a = b := h.owned_inj hown (by rw [hb]; rfl)
    rw [hab, hb] at hrole
    cases hrole

/-- A resource that is not in use is nowhere. -/
theorem fresh (h : Ok l) (hfree : k ∉ l.used) :
    (∀ p, l.map p ≠ some k) ∧ (∀ a, (l.role a).owned ≠ some k) ∧ k ∉ l.table := by
  have hmap : ∀ p, l.map p ≠ some k := fun p hp => hfree (h.map_used hp)
  have hown : ∀ a, (l.role a).owned ≠ some k := fun a ha => hfree (h.owned_used ha)
  refine ⟨hmap, hown, fun hk => ?_⟩
  rcases h.mem hk with ⟨p, hp⟩ | ⟨b, hb⟩
  · exact hmap p hp
  · exact hown b (by rw [hb]; rfl)

/-- What is revoked is owned by nobody. -/
theorem not_owned_of_revoking (h : Ok l) (hrole : l.role a = .revoking p k) (b : π) :
    (l.role b).owned ≠ some k :=
  fun hb => h.owned_unmapped hb (h.revoking hrole).1

variable [DecidableEq π]

theorem alloc (h : Ok l) (hrole : l.role a = .idle) (hfree : k ∉ l.used) :
    Ok { l with used := insert k l.used, role := update l.role a (.holding k) } := by
  obtain ⟨hmap, hown, htable⟩ := h.fresh hfree
  cases h
  constructor <;> simp only [update_apply, Set.mem_insert_iff] <;> grind -linarith [Role.owned]

theorem free (h : Ok l) (hrole : l.role a = .holding k) :
    Ok { l with used := l.used \ {k}, role := update l.role a .idle } := by
  -- nothing else is `k`, so what the others have stays in use
  have htable := h.not_mem_of_holding hrole
  have hown : (l.role a).owned = some k := by rw [hrole]; rfl
  have hmap : ∀ p, l.map p ≠ some k := fun p => h.owned_unmapped hown
  cases h
  constructor <;> simp only [update_apply, Set.mem_sdiff, Set.mem_singleton_iff] <;>
    grind -linarith [Role.owned]

theorem enter (h : Ok l) (hrole : l.role a = .holding k) :
    Ok { l with table := l.table ++ [k], role := update l.role a (.listed k) } := by
  have htable := h.not_mem_of_holding hrole
  have hown : (l.role a).owned = some k := by rw [hrole]; rfl
  have hmap : ∀ p, l.map p ≠ some k := fun p => h.owned_unmapped hown
  cases h
  constructor <;> simp only [update_apply, List.mem_append, List.mem_singleton,
    List.nodup_append] <;> grind -linarith [Role.owned]

theorem leave (h : Ok l) (hrole : l.role a = .listed k) (htable : l.table.Perm (k :: t)) :
    Ok { l with table := t, role := update l.role a (.holding k) } := by
  obtain ⟨hk, ht⟩ := List.nodup_cons.mp (htable.nodup_iff.mp h.nodup)
  have hmem : ∀ x, x ∈ l.table ↔ x = k ∨ x ∈ t := fun x => by rw [htable.mem_iff, List.mem_cons]
  have hown : (l.role a).owned = some k := by rw [hrole]; rfl
  cases h
  constructor <;> simp only [update_apply] <;> grind -linarith [Role.owned]

theorem install [DecidableEq κ] (h : Ok l) (hrole : l.role a = .listed k) (hfree : l.map p = none) :
    Ok { l with
      map := update l.map p (some k), role := update l.role a .idle } := by
  have hown : (l.role a).owned = some k := by rw [hrole]; rfl
  have hmap : ∀ p, l.map p ≠ some k := fun p => h.owned_unmapped hown
  have hmem : k ∈ l.table := h.listed hrole
  cases h
  constructor <;> simp only [update_apply] <;> grind -linarith [Role.owned]

theorem pop (h : Ok l) (hrole : l.role a = .idle) (htable : l.table.Perm (k :: t))
    (hmap : l.map p = some k) :
    Ok { l with table := t, role := update l.role a (.revoking p k) } := by
  obtain ⟨hk, ht⟩ := List.nodup_cons.mp (htable.nodup_iff.mp h.nodup)
  have hmem : ∀ x, x ∈ l.table ↔ x = k ∨ x ∈ t := fun x => by rw [htable.mem_iff, List.mem_cons]
  -- `k` was listed until now, so nobody else revokes it
  have hfirst : ∀ b q, l.role b ≠ .revoking q k := fun b q hb =>
    (h.revoking hb).2 ((hmem k).mpr (Or.inl rfl))
  cases h
  constructor <;> simp only [update_apply] <;> grind -linarith [Role.owned]

theorem push (h : Ok l) (hrole : l.role a = .revoking p k) :
    Ok { l with table := l.table ++ [k], role := update l.role a .idle } := by
  obtain ⟨hmap, htable⟩ := h.revoking hrole
  cases h
  constructor <;> simp only [update_apply, List.mem_append, List.mem_singleton,
    List.nodup_append] <;> grind -linarith [Role.owned]

theorem revoke [DecidableEq κ] (h : Ok l) (hrole : l.role a = .revoking p k) :
    Ok { l with
      map := update l.map p none, role := update l.role a (.holding k) } := by
  obtain ⟨hmap, htable⟩ := h.revoking hrole
  have hown := h.not_owned_of_revoking hrole
  cases h
  constructor <;> simp only [update_apply] <;> grind -linarith [Role.owned]

/-- Every step of the protocol keeps the invariant. -/
theorem step [DecidableEq κ] {l' : Ledger π κ ρ} (h : Ok l) (hs : Step l l') : Ok l' := by
  cases hs with
  | alloc hrole hfree => exact h.alloc hrole hfree
  | free hrole => exact h.free hrole
  | enter hrole => exact h.enter hrole
  | leave hrole htable => exact h.leave hrole htable
  | install hrole hfree => exact h.install hrole hfree
  | pop hrole htable hmap => exact h.pop hrole htable hmap
  | push hrole => exact h.push hrole
  | revoke hrole => exact h.revoke hrole

end Ok

end Ledger

end Pintos.Base
