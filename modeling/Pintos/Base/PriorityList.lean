/-
  Pintos.Base.PriorityList

  Lists kept in descending order of a key by ordered insertion with a strict
  comparison: a new element goes behind the elements of its own key, so that
  equal keys stay in order of arrival.
-/

import Mathlib

namespace Pintos.Base

theorem eq_of_new {α β : Type*} {f : α → β} {a b : α} {l l' : List α} (hp : l'.Perm (b :: l))
    (ha : a ∈ l') (hnew : a ∉ l ∨ f a ≠ f a) : a = b := by
  rcases hnew with hnew | hnew
  · exact (List.mem_cons.mp (hp.mem_iff.mp ha)).resolve_right hnew
  · exact absurd rfl hnew

variable {α β : Type*} [LinearOrder β] {f g : α → β} {a b : α} {l : List α}

/-- No element has a smaller key than one behind it. -/
def Descending (f : α → β) (l : List α) : Prop := l.Pairwise fun a b => f b ≤ f a

/-- `a` is behind every element whose key is at least its own. -/
def Placed (f : α → β) (a : α) (l : List α) : Prop :=
  ∃ l₁ l₂, l = l₁ ++ a :: l₂ ∧ (∀ b ∈ l₁, f a ≤ f b) ∧ ∀ b ∈ l₂, f b < f a

theorem Descending.congr (h : Descending f l) (hg : ∀ a ∈ l, g a = f a) : Descending g l :=
  h.imp_of_mem fun ha hb hab => by rwa [hg _ ha, hg _ hb]

theorem Descending.tail (h : Descending f (a :: l)) : Descending f l := (List.pairwise_cons.mp h).2

theorem Descending.head (h : Descending f (a :: l)) (hb : b ∈ a :: l) : f b ≤ f a := by
  rcases List.mem_cons.mp hb with rfl | hb
  · exact le_rfl
  · exact (List.pairwise_cons.mp h).1 b hb

/-- Insertion puts an element in its place. -/
theorem Descending.placed_orderedInsert {r : α → α → Prop} [DecidableRel r] (h : Descending f l)
    (hr : ∀ a b, r a b ↔ f b < f a) (a : α) : Placed f a (l.orderedInsert r a) := by
  induction l with
  | nil => exact ⟨[], [], by simp, by simp, by simp⟩
  | cons b l ih =>
    rw [List.orderedInsert_cons]
    split
    · rename_i hab
      refine ⟨[], b :: l, rfl, by simp, fun u hu => ?_⟩
      exact lt_of_le_of_lt (h.head hu) ((hr a b).mp hab)
    · rename_i hab
      obtain ⟨l₁, l₂, hl, h₁, h₂⟩ := ih h.tail
      have hle : f a ≤ f b := not_lt.mp fun hlt => hab ((hr a b).mpr hlt)
      refine ⟨b :: l₁, l₂, by rw [hl]; rfl, fun u hu => ?_, h₂⟩
      rcases List.mem_cons.mp hu with rfl | hu
      · exact hle
      · exact h₁ u hu

/-- Insertion keeps the order. -/
theorem Descending.orderedInsert {r : α → α → Prop} [DecidableRel r] (h : Descending f l)
    (hr : ∀ a b, r a b ↔ f b < f a) (a : α) : Descending f (l.orderedInsert r a) := by
  induction l with
  | nil => simp [Descending]
  | cons b l ih =>
    rw [List.orderedInsert_cons]
    split
    · rename_i hab
      refine List.pairwise_cons.mpr ⟨fun u hu => ?_, h⟩
      exact (h.head hu).trans ((hr a b).mp hab).le
    · rename_i hab
      have hle : f a ≤ f b := not_lt.mp fun hlt => hab ((hr a b).mpr hlt)
      refine List.pairwise_cons.mpr ⟨fun u hu => ?_, ih h.tail⟩
      rcases (List.mem_orderedInsert r).mp hu with rfl | hu
      · exact hle
      · exact h.head (List.mem_cons_of_mem _ hu)

/-- An element keeps its place when the first one leaves. -/
theorem Placed.tail (h : Placed f a (b :: l)) (hne : a ≠ b) : Placed f a l := by
  obtain ⟨l₁, l₂, hl, h₁, h₂⟩ := h
  cases l₁ with
  | nil =>
    obtain ⟨rfl, -⟩ := List.cons.inj hl
    exact absurd rfl hne
  | cons u l₁ =>
    obtain ⟨-, rfl⟩ := List.cons.inj hl
    exact ⟨l₁, l₂, rfl, fun x hx => h₁ x (List.mem_cons_of_mem _ hx), h₂⟩

/-! ## The greatest element -/

/-- The first of the greatest elements of a list: the loop replaces the
    element it holds only by one that is greater. -/
def listMax (less : α → α → Bool) : List α → Option α
  | [] => none
  | a :: l => some (l.foldl (fun max e => if less max e then e else max) a)

theorem listMax_eq_none {less : α → α → Bool} (h : listMax less l = none) : l = [] := by
  cases l with
  | nil => rfl
  | cons a l => cases h

/-- The loop ends with an element it has seen, and none it has seen is greater. -/
theorem foldl_max {less : α → α → Bool} (hless : ∀ a b, less a b = true ↔ f a < f b) (l : List α) :
    ∀ a, l.foldl (fun max e => if less max e then e else max) a ∈ a :: l ∧
      ∀ b ∈ a :: l, f b ≤ f (l.foldl (fun max e => if less max e then e else max) a) := by
  induction l with
  | nil => intro a; simp
  | cons e l ih =>
    intro a
    rw [List.foldl_cons]
    by_cases hae : less a e = true
    · rw [if_pos hae]
      obtain ⟨hmem, hle⟩ := ih e
      refine ⟨List.mem_cons_of_mem _ hmem, fun b hb => ?_⟩
      rcases List.mem_cons.mp hb with rfl | hb
      · exact ((hless b e).mp hae).le.trans (hle e List.mem_cons_self)
      · exact hle b hb
    · rw [if_neg hae]
      obtain ⟨hmem, hle⟩ := ih a
      have hea : f e ≤ f a := not_lt.mp fun hlt => hae ((hless a e).mpr hlt)
      refine ⟨?_, fun b hb => ?_⟩
      · rcases List.mem_cons.mp hmem with h | h
        · rw [h]
          exact List.mem_cons_self
        · exact List.mem_cons_of_mem _ (List.mem_cons_of_mem _ h)
      · rcases List.mem_cons.mp hb with rfl | hb
        · exact hle b List.mem_cons_self
        rcases List.mem_cons.mp hb with rfl | hb
        · exact hea.trans (hle a List.mem_cons_self)
        · exact hle b (List.mem_cons_of_mem _ hb)

theorem listMax_mem {less : α → α → Bool} (hless : ∀ a b, less a b = true ↔ f a < f b)
    (h : listMax less l = some a) : a ∈ l := by
  cases l with
  | nil => cases h
  | cons e l => cases h; exact (foldl_max hless l e).1

theorem le_of_listMax {less : α → α → Bool} (hless : ∀ a b, less a b = true ↔ f a < f b)
    (h : listMax less l = some a) (hb : b ∈ l) : f b ≤ f a := by
  cases l with
  | nil => cases h
  | cons e l => cases h; exact (foldl_max hless l e).2 b hb

/-! ## Changes of a list -/

/-- A list of the order of `f` becomes one of the order of `g`; at most one
    element is put into it. -/
inductive Move [DecidableEq α] (f : α → β) (l : List α) (g : α → β) (l' : List α) : Prop
  | stay (hlist : l' = l) (hkey : ∀ a ∈ l, g a = f a)
  | insert (a : α) (r : α → α → Prop) [DecidableRel r] (hr : ∀ a b, r a b ↔ f b < f a)
    (hlist : l' = l.orderedInsert r a) (hkey : g = f)
  | reposition (a : α) (r : α → α → Prop) [DecidableRel r] (hr : ∀ a b, r a b ↔ g b < g a)
    (hlist : l' = (l.erase a).orderedInsert r a) (hkey : ∀ b, b ≠ a → g b = f b)
  | leave (hlist : l' = l.tail) (hkey : g = f)
  | rotate (a : α) (r : α → α → Prop) [DecidableRel r] (hr : ∀ a b, r a b ↔ f b < f a)
    (hlist : l' = (l.orderedInsert r a).tail) (hkey : g = f)

namespace Move

variable [DecidableEq α] {l' : List α}

theorem same (hlist : l' = l) (hkey : g = f) : Move f l g l' :=
  .stay hlist fun a _ => congrFun hkey a

theorem descending_erase (hd : Descending f l) (hn : l.Nodup) (hkey : ∀ b, b ≠ a → g b = f b) :
    Descending g (l.erase a) := by
  have he : Descending f (l.erase a) := List.Pairwise.sublist List.erase_sublist hd
  exact he.congr fun b hb => hkey b (hn.mem_erase_iff.mp hb).1

theorem descending (h : Move f l g l') (hd : Descending f l) (hn : l.Nodup) :
    Descending g l' := by
  cases h with
  | stay hlist hkey =>
    subst hlist
    exact hd.congr hkey
  | insert a r hr hlist hkey =>
    subst hlist hkey
    exact hd.orderedInsert hr a
  | reposition a r hr hlist hkey =>
    subst hlist
    exact (descending_erase hd hn hkey).orderedInsert hr a
  | leave hlist hkey =>
    subst hlist hkey
    exact List.Pairwise.sublist (List.tail_sublist l) hd
  | rotate a r hr hlist hkey =>
    subst hlist hkey
    exact List.Pairwise.sublist (List.tail_sublist _) (hd.orderedInsert hr a)

/-- An element that comes into the list, or gets another key, is in its place. -/
theorem placed (h : Move f l g l') (hd : Descending f l) (hn : l.Nodup) (ha : a ∈ l')
    (hnew : a ∉ l ∨ g a ≠ f a) : Placed g a l' := by
  cases h with
  | stay hlist hkey =>
    subst hlist
    rcases hnew with hnew | hnew
    · exact absurd ha hnew
    · exact absurd (hkey a ha) hnew
  | insert b r hr hlist hkey =>
    subst hlist hkey
    obtain rfl := eq_of_new (List.perm_orderedInsert r b l) ha hnew
    exact hd.placed_orderedInsert hr a
  | reposition b r hr hlist hkey =>
    subst hlist
    obtain rfl : a = b := by
      by_contra hab
      rcases hnew with hnew | hnew
      · rcases (List.mem_orderedInsert r).mp ha with rfl | ha
        · exact hab rfl
        · exact hnew (List.mem_of_mem_erase ha)
      · exact hnew (hkey a hab)
    exact (descending_erase hd hn hkey).placed_orderedInsert hr a
  | leave hlist hkey =>
    subst hlist hkey
    rcases hnew with hnew | hnew
    · exact absurd (List.mem_of_mem_tail ha) hnew
    · exact absurd rfl hnew
  | rotate b r hr hlist hkey =>
    subst hlist hkey
    obtain rfl := eq_of_new (List.perm_orderedInsert r b l) (List.mem_of_mem_tail ha) hnew
    have hnot : a ∉ l := hnew.resolve_right (fun h => h rfl)
    have hnodup : (l.orderedInsert r a).Nodup :=
      (List.perm_orderedInsert r a l).nodup_iff.mpr (List.nodup_cons.mpr ⟨hnot, hn⟩)
    have hplaced := hd.placed_orderedInsert hr a
    cases hl : l.orderedInsert r a with
    | nil => simp [hl] at ha
    | cons n l' =>
      rw [hl] at hplaced ha hnodup
      exact hplaced.tail fun han => (List.nodup_cons.mp hnodup).1 (han ▸ ha)

end Move

end Pintos.Base
