/-
  Pintos.Base.KeyedSet

  Finite sets of elements with keys.  Related elements have the same key, and a
  set holds at most one element of each key.
-/

import Mathlib

namespace Pintos.Base

variable {α : Type*}

/-- A finite set in which no two elements are related. -/
structure KeyedSet (r : Setoid α) where
  elems : Finset α
  eq_of_rel : ∀ a ∈ elems, ∀ b ∈ elems, r a b → a = b

namespace KeyedSet

variable {r : Setoid α} {s : KeyedSet r} {a e : α}

def empty (r : Setoid α) : KeyedSet r := ⟨∅, by simp⟩

open Classical in
/-- The element with the key of `e`. -/
noncomputable def find (s : KeyedSet r) (e : α) : Option α :=
  if h : ∃ a ∈ s.elems, r a e then some h.choose else none

theorem find_eq_some (ha : a ∈ s.elems) (hr : r a e) : s.find e = some a := by
  have h : ∃ a ∈ s.elems, r a e := ⟨a, ha, hr⟩
  obtain ⟨hmem, hrel⟩ := h.choose_spec
  rw [find, dif_pos h]
  congr 1
  exact s.eq_of_rel _ hmem a ha (r.trans hrel (r.symm hr))

theorem find_eq_none (h : ∀ a ∈ s.elems, ¬r a e) : s.find e = none := by
  refine dif_neg ?_
  rintro ⟨a, ha, hr⟩
  exact h a ha hr

/-- Adds an element whose key is not in the set. -/
def insertNew [DecidableEq α] (s : KeyedSet r) (e : α) (h : ∀ a ∈ s.elems, ¬r a e) :
    KeyedSet r where
  elems := insert e s.elems
  eq_of_rel := by
    intro a ha b hb hr
    rcases Finset.mem_insert.mp ha with hae | ha' <;>
      rcases Finset.mem_insert.mp hb with hbe | hb'
    · rw [hae, hbe]
    · exact absurd (r.symm (hae ▸ hr)) (h b hb')
    · exact absurd (hbe ▸ hr) (h a ha')
    · exact s.eq_of_rel a ha' b hb' hr

open Classical

/-- Adds an element unless its key is in the set. -/
noncomputable def insert (s : KeyedSet r) (e : α) : KeyedSet r :=
  if h : ∀ a ∈ s.elems, ¬r a e then s.insertNew e h else s

/-- Removes the element with the key of `e`. -/
noncomputable def delete (s : KeyedSet r) (e : α) : KeyedSet r where
  elems := s.elems.filter fun a => ¬r a e
  eq_of_rel := fun a ha b hb =>
    s.eq_of_rel a (Finset.mem_of_mem_filter a ha) b (Finset.mem_of_mem_filter b hb)

theorem mem_delete : a ∈ (s.delete e).elems ↔ a ∈ s.elems ∧ ¬r a e := Finset.mem_filter

/-- Puts an element in the place of the one with its key. -/
noncomputable def replace (s : KeyedSet r) (e : α) : KeyedSet r :=
  (s.delete e).insertNew e fun _ ha => (mem_delete.mp ha).2

theorem mem_replace : a ∈ (s.replace e).elems ↔ a = e ∨ a ∈ s.elems ∧ ¬r a e := by
  rw [replace, insertNew, Finset.mem_insert, mem_delete]

theorem mem_insert_of_none (h : ∀ a ∈ s.elems, ¬r a e) :
    a ∈ (s.insert e).elems ↔ a = e ∨ a ∈ s.elems := by
  rw [insert, dif_pos h, insertNew, Finset.mem_insert]

theorem insert_of_mem {b : α} (hb : b ∈ s.elems) (hr : r b e) : s.insert e = s :=
  dif_neg fun h => h b hb hr

/-- A list of the elements. -/
theorem card_of_list {l : List α} (hl : l.Nodup) (h : ∀ a, a ∈ l ↔ a ∈ s.elems) :
    s.elems.card = l.length := by
  have heq : s.elems = l.toFinset := by
    ext a
    rw [List.mem_toFinset]
    exact (h a).symm
  rw [heq, List.toFinset_card_of_nodup hl]

end KeyedSet

end Pintos.Base
