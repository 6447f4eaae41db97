/-
  Pintos.Fs.Deallocate

  `inode_deallocate` releases the sectors that `inode_extend` allocated.

  The walk of `inode_deallocate` visits every slot of the inode once
  (`slotList`).  It reads an index block before it releases it, and releasing a
  sector writes to the free map's file only, so the pointers it follows are the
  ones that were there when it started.
-/

import Pintos.Fs.Extend

namespace Pintos.Fs

open Pintos.Base Pintos.Lib Function

/-! ## The slots in the order of the walk -/

/-- The slots of second-level block `o` of an inode of `cnt` sectors. -/
def innerSlots (cnt o : Nat) : List Slot :=
  ((List.range (min (cnt - 251 - 128 * o) 128)).map fun k => Slot.data (251 + 128 * o + k)) ++
    [.inner o]

/-- The slots of an inode of `cnt` sectors behind the direct ones. -/
def indirectSlots (cnt : Nat) : List Slot :=
  ((List.range (min (cnt - 123) 128)).map fun k => Slot.data (123 + k)) ++ [.indirect]

/-- The slots of an inode of `cnt` sectors behind the indirect block. -/
def doublySlots (cnt : Nat) : List Slot :=
  ((List.range ((cnt - 251 + 127) / 128)).flatMap (innerSlots cnt)) ++ [.doubly]

/-- The direct slots of an inode of `cnt` sectors. -/
def directSlots (cnt : Nat) : List Slot := (List.range (min cnt 123)).map Slot.data

/-- The slots of an inode of `cnt` sectors. -/
def slotList (cnt : Nat) : List Slot :=
  directSlots cnt ++ (if 123 < cnt then indirectSlots cnt else []) ++
    (if 251 < cnt then doublySlots cnt else [])

section SlotList

variable {cnt o b m : Nat} {σ ρ : Slot}

/-- The pointers of an index block, and the block. -/
theorem mem_blockSlots : σ ∈ ((List.range m).map fun k => Slot.data (b + k)) ++ [ρ] ↔
    σ = ρ ∨ ∃ i, σ = .data i ∧ b ≤ i ∧ i < b + m := by
  simp only [List.mem_append, List.mem_map, List.mem_range, List.mem_singleton]
  constructor
  · rintro (⟨k, hk, rfl⟩ | rfl)
    · exact .inr ⟨_, rfl, by omega, by omega⟩
    · exact .inl rfl
  · rintro (rfl | ⟨i, rfl, h₁, h₂⟩)
    · exact .inr rfl
    · refine .inl ⟨i - b, by omega, ?_⟩
      rw [Nat.add_sub_cancel' h₁]

theorem nodup_blockSlots (hρ : ∀ i, ρ ≠ .data i) :
    (((List.range m).map fun k => Slot.data (b + k)) ++ [ρ]).Nodup := by
  refine List.Nodup.append ?_ (List.nodup_singleton _) ?_
  · refine List.nodup_range.map fun k l hkl => ?_
    exact Nat.add_left_cancel (Slot.data.inj hkl)
  · rw [List.disjoint_singleton, List.mem_map]
    rintro ⟨k, -, hk⟩
    exact hρ _ hk.symm

theorem mem_directSlots : σ ∈ directSlots cnt ↔ ∃ i, σ = .data i ∧ i < 123 ∧ i < cnt := by
  simp only [directSlots, List.mem_map, List.mem_range]
  constructor
  · rintro ⟨i, hi, rfl⟩
    exact ⟨i, rfl, by omega, by omega⟩
  · rintro ⟨i, rfl, h₁, h₂⟩
    exact ⟨i, by omega, rfl⟩

theorem mem_innerSlots : σ ∈ innerSlots cnt o ↔
    σ = .inner o ∨ ∃ i, σ = .data i ∧ 251 + 128 * o ≤ i ∧ i < 251 + 128 * (o + 1) ∧ i < cnt := by
  rw [innerSlots, mem_blockSlots]
  refine or_congr_right (exists_congr fun i => and_congr_right fun _ => ?_)
  omega

theorem mem_indirectSlots : σ ∈ indirectSlots cnt ↔
    σ = .indirect ∨ ∃ i, σ = .data i ∧ 123 ≤ i ∧ i < 251 ∧ i < cnt := by
  rw [indirectSlots, mem_blockSlots]
  refine or_congr_right (exists_congr fun i => and_congr_right fun _ => ?_)
  omega

theorem mem_doublySlots (hcnt : 251 < cnt) : σ ∈ doublySlots cnt ↔
    σ = .doubly ∨ (∃ o, σ = .inner o ∧ 251 + 128 * o < cnt) ∨ ∃ i, σ = .data i ∧ 251 ≤ i ∧ i < cnt := by
  simp only [doublySlots, List.mem_append, List.mem_flatMap, List.mem_range, List.mem_singleton]
  constructor
  · rintro (⟨o, ho, hσ⟩ | rfl)
    · rcases mem_innerSlots.mp hσ with rfl | ⟨i, rfl, h₁, h₂, h₃⟩
      · exact .inr (.inl ⟨o, rfl, by omega⟩)
      · exact .inr (.inr ⟨i, rfl, by omega, h₃⟩)
    · exact .inl rfl
  · rintro (rfl | ⟨o, rfl, ho⟩ | ⟨i, rfl, h₁, h₂⟩)
    · exact .inr rfl
    · exact .inl ⟨o, by omega, mem_innerSlots.mpr (.inl rfl)⟩
    · exact .inl ⟨(i - 251) / 128, by omega,
        mem_innerSlots.mpr (.inr ⟨i, rfl, by omega, by omega, h₂⟩)⟩

theorem mem_slotList : σ ∈ slotList cnt ↔ σ ∈ Needs cnt := by
  simp only [slotList, List.mem_append, mem_directSlots]
  by_cases hind : 123 < cnt
  · by_cases hdbl : 251 < cnt
    · rw [if_pos hind, if_pos hdbl, mem_indirectSlots, mem_doublySlots hdbl]
      cases σ <;> simp <;> omega
    · rw [if_pos hind, if_neg hdbl, mem_indirectSlots]
      cases σ <;> simp <;> omega
  · rw [if_neg hind, if_neg (show ¬ 251 < cnt by omega)]
    cases σ <;> simp <;> omega

theorem innerSlots_subset (ho : 251 + 128 * o < cnt) (hσ : σ ∈ innerSlots cnt o) :
    σ ∈ Needs cnt := by
  rcases mem_innerSlots.mp hσ with rfl | ⟨i, rfl, -, -, hi⟩
  · exact ho
  · exact hi

theorem innerSlots_disjoint {o' : Nat} (ho : o ≠ o') :
    List.Disjoint (innerSlots cnt o) (innerSlots cnt o') := by
  intro σ hσ hσ'
  rw [mem_innerSlots] at hσ hσ'
  cases σ <;> simp at hσ hσ' <;> omega

theorem doubly_notMem (l : List Nat) : List.Disjoint (l.flatMap (innerSlots cnt)) [.doubly] := by
  rw [List.disjoint_singleton, List.mem_flatMap]
  rintro ⟨o, -, hmem⟩
  simp [mem_innerSlots] at hmem

theorem nodup_innerSlots : (innerSlots cnt o).Nodup := nodup_blockSlots (by simp)

theorem nodup_indirectSlots : (indirectSlots cnt).Nodup := nodup_blockSlots (by simp)

theorem nodup_directSlots : (directSlots cnt).Nodup :=
  List.nodup_range.map fun _ _ h => Slot.data.inj h

theorem nodup_doublySlots : (doublySlots cnt).Nodup := by
  refine List.Nodup.append ?_ (List.nodup_singleton _) (doubly_notMem _)
  rw [List.nodup_flatMap]
  exact ⟨fun o _ => nodup_innerSlots, List.nodup_range.imp innerSlots_disjoint⟩

theorem nodup_slotList : (slotList cnt).Nodup := by
  have hindirect : (if 123 < cnt then indirectSlots cnt else []).Nodup := by
    split
    · exact nodup_indirectSlots
    · exact List.nodup_nil
  have hdoubly : (if 251 < cnt then doublySlots cnt else []).Nodup := by
    split
    · exact nodup_doublySlots
    · exact List.nodup_nil
  have hmem : ∀ σ, σ ∈ (if 123 < cnt then indirectSlots cnt else []) →
      σ = .indirect ∨ ∃ i, σ = .data i ∧ 123 ≤ i ∧ i < 251 := by
    intro σ hσ
    split at hσ
    · rcases mem_indirectSlots.mp hσ with rfl | ⟨i, rfl, h₁, h₂, -⟩
      · exact .inl rfl
      · exact .inr ⟨i, rfl, h₁, h₂⟩
    · cases hσ
  refine List.Nodup.append (List.Nodup.append nodup_directSlots hindirect ?_) hdoubly ?_
  · intro σ hσ hσ'
    obtain ⟨i, rfl, hi, -⟩ := mem_directSlots.mp hσ
    have hσ' := hmem _ hσ'
    simp at hσ'
    omega
  · intro σ hσ hσ'
    split at hσ'
    · rename_i hcnt
      rw [mem_doublySlots hcnt] at hσ'
      rcases List.mem_append.mp hσ with hσ | hσ
      · obtain ⟨i, rfl, hi, -⟩ := mem_directSlots.mp hσ
        simp at hσ'
        omega
      · rcases hmem σ hσ with rfl | ⟨i, rfl, -, hi⟩
        · simp at hσ'
        · simp at hσ'
          omega
    · cases hσ'

end SlotList

/-! ## Releasing -/

/-- The sectors of the inode `n`, which is not live any more, are released one by
    one; those of the slots in `R` are free again. -/
structure Freeing (n : Sector) (files : Files) (s₀ : State) (d : Memory) (S : Set Slot)
    (owner₀ : Owner) (s : State) (owner : Owner) (R : Set Slot) : Prop where
  owned : Owned s files owner
  dead : files n = none
  closed : Closed S
  maps : Maps s₀.disk d S owner₀ n
  device : OnDevice owner₀ s₀.size
  size : s.size = s₀.size
  freeMapFile : s.freeMapFile = true
  openInodes : s.openInodes = s₀.openInodes
  less : ∀ p r, owner p = some r → owner₀ p = some r
  keep : ∀ p r, owner₀ p = some r → (∀ σ ∈ R, slotSector s₀.disk d σ ≠ p) → owner p = some r
  disk : DataOnly owner₀ FREE_MAP_SECTOR s₀.disk s.disk
  sub : R ⊆ S
  freed : ∀ σ ∈ R, s.freeMap[slotSector s₀.disk d σ]? = some false
  others : ∀ p, (∀ σ ∈ R, slotSector s₀.disk d σ ≠ p) → s.freeMap[p]? = s₀.freeMap[p]?
  mallocs : s.mallocs <:+ s₀.mallocs
  synced : s₀.MallocsSucceed → Synced s₀ → Synced s

/-- The sectors of a list are released. -/
def releaseAll : List Sector → M Unit
  | [] => pure ()
  | p :: rest => do
    freeMapRelease p 1
    releaseAll rest

theorem releaseAll_append (l l' : List Sector) :
    releaseAll (l ++ l') = (do releaseAll l; releaseAll l' : M Unit) := by
  induction l with
  | nil => rfl
  | cons p rest ih => rw [List.cons_append, releaseAll, releaseAll, ih, bind_assoc]

theorem releaseAll_singleton (p : Sector) : releaseAll [p] = freeMapRelease p 1 := by
  rw [releaseAll, releaseAll]
  exact bind_pure_unit

/-- An owner is forgotten. -/
theorem Owned.forget {s : State} {files : Files} {owner : Owner} (h : Owned s files owner)
    {n p : Sector} {τ : Option Slot} (hdead : files n = none) (hp : owner p = some (n, τ)) :
    Owned s files (update owner p none) := by
  have hkeep : ∀ q m σ, m ≠ n → owner q = some (m, σ) →
      update owner p none q = some (m, σ) := by
    intro q m σ hm hq
    rw [update_of_ne]
    · exact hq
    · rintro rfl
      cases hp.symm.trans hq
      exact hm rfl
  have hne : ∀ m e S, files m = some (e, S) → m ≠ n := by
    rintro m e S hm rfl
    rw [hdead] at hm
    cases hm
  exact {
    len := h.len
    small := h.small
    used := by
      intro q r hq
      by_cases hqp : q = p
      · rw [hqp, update_self] at hq
        cases hq
      · rw [update_of_ne hqp] at hq
        exact h.used q r hq
    closed := h.closed
    maps := fun m e S hm σ hσ => hkeep _ m _ (hne m e S hm) (h.maps m e S hm σ hσ)
    file := h.file }

namespace Freeing

variable {n : Sector} {files : Files} {s₀ : State} {d : Memory} {S : Set Slot} {owner₀ : Owner}
  {s : State} {owner : Owner} {R : Set Slot} {σ : Slot}

theorem start (h : Owned s₀ files owner₀) (hfile : s₀.freeMapFile = true) (hdead : files n = none)
    (hclosed : Closed S) (hmaps : Maps s₀.disk d S owner₀ n) :
    Freeing n files s₀ d S owner₀ s₀ owner₀ ∅ where
  owned := h
  dead := hdead
  closed := hclosed
  maps := hmaps
  device := h.onDevice
  size := rfl
  freeMapFile := hfile
  openInodes := rfl
  less _ _ h := h
  keep _ _ h _ := h
  disk := .refl _ _ _
  sub _ h := h.elim
  freed _ h := h.elim
  others _ _ := rfl
  mallocs := List.suffix_rfl
  synced _ h := h

/-- The sector of one more slot is released. -/
theorem release (h : Freeing n files s₀ d S owner₀ s owner R) (hσ : σ ∈ S) (hR : σ ∉ R) :
    ∃ s' owner', freeMapRelease (slotSector s₀.disk d σ) 1 s = .ok () s' ∧
      Freeing n files s₀ d S owner₀ s' owner' (insert σ R) := by
  have hslot : ∀ τ ∈ R, slotSector s₀.disk d τ ≠ slotSector s₀.disk d σ := by
    intro τ hτ heq
    exact hR (h.maps.injOn (h.sub hτ) hσ heq ▸ hτ)
  have howner := h.keep _ _ (h.maps σ hσ) hslot
  have hforget := h.owned.forget h.dead howner
  have hused := h.owned.used _ _ howner
  have hlt := (List.getElem?_eq_some_iff.mp hused).1
  obtain ⟨s', hrun, hstep, hmap, hsync⟩ :=
    freeMapRelease_eq hforget h.freeMapFile hused (update_self _ _ _)
  have hdrop : ∀ q r, update owner (slotSector s₀.disk d σ) none q = some r →
      owner q = some r := by
    intro q r hq
    by_cases hqp : q = slotSector s₀.disk d σ
    · rw [hqp, update_self] at hq
      cases hq
    · rw [update_of_ne hqp] at hq
      exact hq
  have hbit : ∀ q, q ≠ slotSector s₀.disk d σ → s'.freeMap[q]? = s.freeMap[q]? := by
    intro q hq
    rw [hmap, List.getElem?_set_ne (Ne.symm hq)]
  refine ⟨s', update owner (slotSector s₀.disk d σ) none, hrun, ?_⟩
  exact {
    owned := by
      refine hforget.freeMapStep hstep (by rw [hmap, List.length_set]) fun q r hq => ?_
      rw [hbit q (ne_of_owner_none (update_self _ _ _) hq)]
      exact hforget.used q r hq
    dead := h.dead
    closed := h.closed
    maps := h.maps
    device := h.device
    size := hstep.size.trans h.size
    freeMapFile := hstep.freeMapFile.trans h.freeMapFile
    openInodes := hstep.openInodes.trans h.openInodes
    less := fun q r hq => h.less q r (hdrop q r hq)
    keep := by
      intro q r hq hne
      rw [update_of_ne (hne σ (.inl rfl)).symm]
      exact h.keep q r hq fun τ hτ => hne τ (.inr hτ)
    disk := by
      intro q hq
      rw [← h.disk q hq]
      apply hstep.disk
      intro j hj
      exact hq j (h.less _ _ (hdrop _ _ hj))
    sub := by
      rintro τ (rfl | hτ)
      · exact hσ
      · exact h.sub hτ
    freed := by
      rintro τ (rfl | hτ)
      · rw [hmap, List.getElem?_set_self hlt]
      · rw [hbit _ (hslot τ hτ)]
        exact h.freed τ hτ
    others := by
      intro q hq
      rw [hbit q (hq σ (.inl rfl)).symm]
      exact h.others q fun τ hτ => hq τ (.inr hτ)
    mallocs := hstep.mallocs.trans h.mallocs
    synced := fun hok _ => hsync (hok.of_suffix h.mallocs).canWrite }

/-- An index block of the inode is read as it was at the start. -/
theorem blockRead_index (h : Freeing n files s₀ d S owner₀ s owner R) (hσ : σ ∈ S)
    (hindex : ∃ τ, Slot.parent τ = some σ) :
    blockRead (slotSector s₀.disk d σ) s = .ok (s₀.disk (slotSector s₀.disk d σ)) s := by
  have howner := h.maps σ hσ
  rw [blockRead_eq (by rw [h.size]; exact h.device _ _ howner),
    Maps.index_of_dataOnly h.disk howner hindex]

end Freeing

/-! ## The walk -/

theorem releaseDirect_eq (d : Memory) (m : Nat) : ∀ i, i + m ≤ 123 →
    releaseDirect d m i = releaseAll ((List.range' i m).map fun j => word d (8 + 4 * j)) := by
  induction m with
  | zero =>
    intro i _
    rfl
  | succ m ih =>
    intro i hi
    have hptr : direct d i = pure (word d (8 + 4 * i)) :=
      funext fun _ => direct_eq (show i < 123 by omega)
    rw [releaseDirect, List.range'_succ, List.map_cons, releaseAll, hptr, pure_bind,
      ih (i + 1) (by omega)]

theorem releasePtrs_eq (b : Memory) (m : Nat) : ∀ i, i + m ≤ 128 →
    releasePtrs b m i = releaseAll ((List.range' i m).map fun j => word b (4 * j)) := by
  induction m with
  | zero =>
    intro i _
    rfl
  | succ m ih =>
    intro i hi
    have hptr : ptr b i = pure (word b (4 * i)) :=
      funext fun _ => ptr_eq (show i < 128 by omega)
    rw [releasePtrs, List.range'_succ, List.map_cons, releaseAll, hptr, pure_bind,
      ih (i + 1) (by omega)]

/-- Pointers of an index block are released, then the block itself. -/
theorem releasePtrs_then {b : Memory} {m : Nat} (hm : m ≤ 128) (p : Sector) :
    (do releasePtrs b m 0; freeMapRelease p 1 : M Unit) =
      releaseAll (((List.range m).map fun j => word b (4 * j)) ++ [p]) := by
  rw [releaseAll_append, List.range_eq_range', releasePtrs_eq b m 0 (by omega),
    releaseAll_singleton]

theorem indirectSlots_sectors (disk : Sector → Memory) (d : Memory) (cnt : Nat) :
    (indirectSlots cnt).map (slotSector disk d) =
      ((List.range (min (cnt - 123) 128)).map fun j => word (disk (indirect d)) (4 * j)) ++
        [indirect d] := by
  have hdata : ∀ j ∈ List.range (min (cnt - 123) 128),
      slotSector disk d (.data (123 + j)) = word (disk (indirect d)) (4 * j) := by
    intro j hj
    rw [List.mem_range] at hj
    exact slotSector_indirect (by omega)
  rw [indirectSlots, List.map_append, List.map_map, ← List.map_congr_left hdata]
  rfl

theorem innerSlots_sectors (disk : Sector → Memory) (d : Memory) (cnt o : Nat) :
    (innerSlots cnt o).map (slotSector disk d) =
      ((List.range (min (cnt - 251 - 128 * o) 128)).map fun j =>
        word (disk (slotSector disk d (.inner o))) (4 * j)) ++ [slotSector disk d (.inner o)] := by
  have hdata : ∀ j ∈ List.range (min (cnt - 251 - 128 * o) 128),
      slotSector disk d (.data (251 + 128 * o + j)) =
        word (disk (slotSector disk d (.inner o))) (4 * j) := by
    intro j hj
    rw [List.mem_range] at hj
    exact slotSector_inner (by omega)
  rw [innerSlots, List.map_append, List.map_map, ← List.map_congr_left hdata]
  rfl

/-- The program releases the sectors of the slots in `l`, one after the other. -/
def Releases (n : Sector) (files : Files) (s₀ : State) (d : Memory) (S : Set Slot) (owner₀ : Owner)
    (prog : M Unit) (l : List Slot) : Prop :=
  ∀ s owner R, Freeing n files s₀ d S owner₀ s owner R → (∀ σ ∈ l, σ ∉ R) →
    ∃ s' owner', prog s = .ok () s' ∧ releaseAll (l.map (slotSector s₀.disk d)) s = .ok () s' ∧
      Freeing n files s₀ d S owner₀ s' owner' (R ∪ {σ | σ ∈ l})

namespace Releases

variable {n : Sector} {files : Files} {s₀ : State} {d : Memory} {S : Set Slot} {owner₀ : Owner}
  {p q : M Unit} {l l' : List Slot} {cnt : Nat}

theorem nil : Releases n files s₀ d S owner₀ (pure ()) [] := by
  intro s owner R h _
  refine ⟨s, owner, rfl, rfl, ?_⟩
  rw [show (R ∪ {σ | σ ∈ ([] : List Slot)}) = R by ext; simp]
  exact h

theorem slot {σ : Slot} (hσ : σ ∈ S) :
    Releases n files s₀ d S owner₀ (freeMapRelease (slotSector s₀.disk d σ) 1) [σ] := by
  intro s owner R h hR
  obtain ⟨s', owner', hrun, hfree⟩ := h.release hσ (hR σ List.mem_cons_self)
  refine ⟨s', owner', hrun, ?_, ?_⟩
  · rw [List.map_singleton, releaseAll_singleton]
    exact hrun
  · rw [show R ∪ {τ | τ ∈ [σ]} = insert σ R by ext; simp [or_comm]]
    exact hfree

theorem seq (hp : Releases n files s₀ d S owner₀ p l) (hq : Releases n files s₀ d S owner₀ q l')
    (hdisj : l.Disjoint l') : Releases n files s₀ d S owner₀ (do p; q) (l ++ l') := by
  intro s owner R h hR
  obtain ⟨s₁, owner₁, hrun, hall, hfree⟩ :=
    hp s owner R h fun σ hσ => hR σ (List.mem_append_left _ hσ)
  have hleft : ∀ σ ∈ l', σ ∉ R ∪ {σ | σ ∈ l} := by
    rintro σ hσ (hσR | hσl)
    · exact hR σ (List.mem_append_right _ hσ) hσR
    · exact hdisj hσl hσ
  obtain ⟨s', owner', hrun', hall', hfree'⟩ := hq s₁ owner₁ _ hfree hleft
  refine ⟨s', owner', ?_, ?_, ?_⟩
  · rw [bind_ok hrun]
    exact hrun'
  · rw [List.map_append, releaseAll_append, bind_ok hall]
    exact hall'
  · rw [show R ∪ {σ | σ ∈ l ++ l'} = R ∪ {σ | σ ∈ l} ∪ {σ | σ ∈ l'} by ext; simp [or_assoc]]
    exact hfree'

theorem when {c : Prop} [Decidable c] (h : c → Releases n files s₀ d S owner₀ p l) :
    Releases n files s₀ d S owner₀ (if c then p else pure ()) (if c then l else []) := by
  split
  · exact h ‹c›
  · exact nil

theorem of_eq (h : Releases n files s₀ d S owner₀ p l)
    (heq : ∀ s owner R, Freeing n files s₀ d S owner₀ s owner R → q s = p s) :
    Releases n files s₀ d S owner₀ q l := by
  intro s owner R hs hR
  rw [heq s owner R hs]
  exact h s owner R hs hR

theorem slots (l : List Slot) (hS : ∀ σ ∈ l, σ ∈ S) (hl : l.Nodup) :
    Releases n files s₀ d S owner₀ (releaseAll (l.map (slotSector s₀.disk d))) l := by
  induction l with
  | nil => exact nil
  | cons σ rest ih =>
    obtain ⟨hσ, hrest⟩ := List.nodup_cons.mp hl
    refine (slot (hS σ List.mem_cons_self)).seq
      (ih (fun τ hτ => hS τ (List.mem_cons_of_mem _ hτ)) hrest) ?_
    rw [List.singleton_disjoint]
    exact hσ

theorem direct : Releases n files s₀ d (Needs cnt) owner₀
    (releaseDirect d (if cnt < DIRECT_BLOCKS then cnt else DIRECT_BLOCKS) 0) (directSlots cnt) := by
  have hdata : ∀ i ∈ List.range' 0 (min cnt 123),
      (slotSector s₀.disk d ∘ Slot.data) i = word d (8 + 4 * i) := by
    intro i hi
    rw [List.mem_range'_1] at hi
    rw [comp_apply, slotSector, if_pos (show i < 123 by omega)]
  have hmin : (if cnt < DIRECT_BLOCKS then cnt else DIRECT_BLOCKS) = min cnt 123 := by
    simp only [DIRECT_BLOCKS]
    split <;> omega
  rw [hmin, releaseDirect_eq d _ 0 (by omega), ← List.map_congr_left hdata, ← List.map_map,
    ← List.range_eq_range']
  refine slots _ (fun σ hσ => ?_) nodup_directSlots
  obtain ⟨i, rfl, -, hi⟩ := mem_directSlots.mp hσ
  exact hi

/-- The sectors of the indirect block, and the block. -/
theorem indirect (hcnt : 123 < cnt) :
    Releases n files s₀ d (Needs cnt) owner₀ (releaseIndirect d cnt) (indirectSlots cnt) := by
  refine (slots (indirectSlots cnt) (fun σ hσ => ?_) nodup_indirectSlots).of_eq ?_
  · rcases mem_indirectSlots.mp hσ with rfl | ⟨i, rfl, -, -, hi⟩
    · exact hcnt
    · exact hi
  · intro s owner R h
    have hread : blockRead (Fs.indirect d) s = .ok (s₀.disk (Fs.indirect d)) s :=
      h.blockRead_index (σ := .indirect) hcnt ⟨.data 123, rfl⟩
    have hmin : (if cnt - DIRECT_BLOCKS > PTRS_PER_SECTOR then PTRS_PER_SECTOR
        else cnt - DIRECT_BLOCKS) = min (cnt - 123) 128 := by
      simp only [DIRECT_BLOCKS, PTRS_PER_SECTOR]
      split <;> omega
    rw [releaseIndirect, bind_ok hread]
    simp only [hmin]
    rw [releasePtrs_then (Nat.min_le_right _ _), indirectSlots_sectors]

/-- The loop over the second-level blocks. -/
theorem inner (hcap : cnt ≤ capacity) (hcnt : 251 < cnt) (m : Nat) :
    ∀ o, o + m = (cnt - 251 + 127) / 128 → Releases n files s₀ d (Needs cnt) owner₀
      (releaseInner (s₀.disk (doublyIndirect d)) m o (cnt - 251 - 128 * o))
      ((List.range' o m).flatMap (innerSlots cnt)) := by
  rw [capacity_eq] at hcap
  induction m with
  | zero =>
    intro o _
    exact nil
  | succ m ih =>
    intro o hom
    have ho : 251 + 128 * o < cnt := by omega
    have hdisj : List.Disjoint (innerSlots cnt o)
        ((List.range' (o + 1) m).flatMap (innerSlots cnt)) := by
      intro σ hσ hσ'
      obtain ⟨o', ho', hσ'⟩ := List.mem_flatMap.mp hσ'
      rw [List.mem_range'_1] at ho'
      exact innerSlots_disjoint (by omega) hσ hσ'
    refine ((slots (innerSlots cnt o) (fun σ hσ => innerSlots_subset ho hσ) nodup_innerSlots).seq
      (ih (o + 1) (by omega)) hdisj).of_eq fun s owner R h => ?_
    have hptr : ptr (s₀.disk (doublyIndirect d)) o = pure (slotSector s₀.disk d (.inner o)) :=
      funext fun _ => ptr_eq (show o < 128 by omega)
    have hread := h.blockRead_index (σ := .inner o) ho ⟨.data (251 + 128 * o), by
      obtain ⟨hlt, -⟩ | ⟨-, hlt, -⟩ | ⟨o', k, hk, hk', hp, -⟩ := Slot.data_cases (251 + 128 * o)
      · omega
      · omega
      · rw [hp, show o' = o by omega]⟩
    have hmin : (if cnt - 251 - 128 * o < PTRS_PER_SECTOR then cnt - 251 - 128 * o
        else PTRS_PER_SECTOR) = min (cnt - 251 - 128 * o) 128 := by
      simp only [PTRS_PER_SECTOR]
      split <;> omega
    rw [releaseInner, hptr, pure_bind, bind_ok hread]
    simp only [hmin, pure_bind]
    rw [innerSlots_sectors, ← releasePtrs_then (Nat.min_le_right _ _), bind_assoc,
      show cnt - 251 - 128 * o - min (cnt - 251 - 128 * o) 128 = cnt - 251 - 128 * (o + 1) by omega]

/-- The sectors behind the indirect block, the second-level blocks, and the
    doubly-indirect block. -/
theorem doubly (hcap : cnt ≤ capacity) (hcnt : 251 < cnt) :
    Releases n files s₀ d (Needs cnt) owner₀ (releaseDoubly d cnt) (doublySlots cnt) := by
  have hinner : Releases n files s₀ d (Needs cnt) owner₀ _ _ :=
    inner hcap hcnt ((cnt - 251 + 127) / 128) 0 (Nat.zero_add _)
  rw [← List.range_eq_range'] at hinner
  refine (hinner.seq (slot (σ := .doubly) hcnt) (doubly_notMem _)).of_eq fun s owner R h => ?_
  have hread : blockRead (doublyIndirect d) s = .ok (s₀.disk (doublyIndirect d)) s :=
    h.blockRead_index (σ := .doubly) hcnt ⟨.inner 0, rfl⟩
  have hsub : cnt - DIRECT_BLOCKS - PTRS_PER_SECTOR = cnt - 251 - 128 * 0 := by
    simp only [DIRECT_BLOCKS, PTRS_PER_SECTOR]
    omega
  have hdiv : (cnt - 251 - 128 * 0 + PTRS_PER_SECTOR - 1) / PTRS_PER_SECTOR =
      (cnt - 251 + 127) / 128 := by
    simp only [PTRS_PER_SECTOR]
    rw [show cnt - 251 - 128 * 0 + 128 - 1 = cnt - 251 + 127 by omega]
  rw [releaseDoubly, bind_ok hread]
  simp only [hsub, hdiv]
  rfl

theorem deallocate (hcnt : sectors d = cnt) (hcap : cnt ≤ capacity) :
    Releases n files s₀ d (Needs cnt) owner₀ (inodeDeallocate d) (slotList cnt) := by
  have hnodup : (slotList cnt).Nodup := nodup_slotList
  have hdisj := List.disjoint_of_nodup_append hnodup
  have hdisj' := List.disjoint_of_nodup_append hnodup.of_append_left
  refine ((direct.seq (when fun h => indirect h) hdisj').seq
    (when fun h => doubly hcap h) hdisj).of_eq fun s _ _ _ => ?_
  rw [inodeDeallocate]
  simp only [show bytesToSectors (length d) = cnt from hcnt, DIRECT_BLOCKS, PTRS_PER_SECTOR,
    Nat.reduceAdd]
  by_cases hzero : cnt = 0
  · subst hzero
    rfl
  · rw [if_neg hzero, bind_assoc]
    by_cases hind : 123 < cnt
    · rw [if_neg (show ¬ cnt ≤ 123 by omega), if_pos hind]
      by_cases hdbl : 251 < cnt
      · rw [if_neg (show ¬ cnt ≤ 251 by omega), if_pos hdbl]
      · rw [if_pos (show cnt ≤ 251 by omega), if_neg hdbl]
    · rw [if_pos (show cnt ≤ 123 by omega), if_neg hind, if_neg (show ¬ 251 < cnt by omega)]
      rfl

end Releases

/-- `inode_deallocate` releases the sectors of the slots of the inode, each once. -/
theorem Freeing.inodeDeallocate_eq {n : Sector} {files : Files} {s : State} {d : Memory}
    {owner : Owner} (h : Owned s files owner) (hfile : s.freeMapFile = true)
    (hdead : files n = none) {cnt : Nat} (hcnt : sectors d = cnt)
    (hcap : cnt ≤ capacity) (hmaps : Maps s.disk d (Needs cnt) owner n) :
    ∃ s' owner', inodeDeallocate d s = .ok () s' ∧
      releaseAll ((slotList cnt).map (slotSector s.disk d)) s = .ok () s' ∧
      Freeing n files s d (Needs cnt) owner s' owner' (Needs cnt) := by
  have hneeds : (∅ ∪ {σ | σ ∈ slotList cnt} : Set Slot) = Needs cnt := by
    rw [Set.empty_union]
    ext σ
    exact mem_slotList
  have hstart := Freeing.start h hfile hdead (closed_needs cnt) hmaps
  have hall := Releases.deallocate hcnt hcap s owner ∅ hstart fun _ _ h => h
  rw [hneeds] at hall
  exact hall

/-! ## Building and releasing an inode -/

/-- The sectors that a call allocated. -/
def taken (s s' : State) : Set Sector := fun p =>
  s.freeMap[p]? = some false ∧ s'.freeMap[p]? = some true

/-- The sectors of the slots of an inode. -/
def slotSectors (disk : Sector → Memory) (d : Memory) (S : Set Slot) : Set Sector := fun p =>
  ∃ σ ∈ S, slotSector disk d σ = p

/-- The inode `d₀` grew to `d` by successful calls of `inode_extend`, which allocated
    the sectors in `T`.  Between the calls there may be other changes `env`, which
    leave the file system mounted and the sectors of the inode alone. -/
inductive Built (env : State → State → Prop) (s₀ : State) (d₀ : Memory) :
    Set Sector → State → Memory → Prop
  | start : Built env s₀ d₀ ∅ s₀ d₀
  | extend {T : Set Sector} {s s' : State} {d d' : Memory} {newLength : Int} :
      Built env s₀ d₀ T s d → length d < newLength → newLength < 2 ^ 31 →
      bytesToSectors newLength ≤ capacity → inodeExtend d newLength s = .ok (d', true) s' →
      Built env s₀ d₀ (T ∪ taken s s') s' d'
  | meanwhile {T : Set Sector} {s s' : State} {d : Memory} {i : Inode} :
      Built env s₀ d₀ T s d → env s s' → Mounted s' i → Resident s' i d →
      (∀ p ∈ T, s'.disk p = s.disk p) → Built env s₀ d₀ T s' d

/-- The new length is in none of the pointers. -/
theorem sameRoots_setLength (S : Set Slot) (d : Memory) (x : Int) :
    SameRoots S (setLength d x) d := by
  intro σ _ hroot
  have := Growing.pos_of_root hroot
  exact word_setWord_of_disjoint (by omega)

/-- What a successful call does to an inode on the file system. -/
theorem inodeExtend_resident {s s' : State} {i : Inode} {d d' : Memory} {newLength : Int}
    (hm : Mounted s i) (hr : Resident s i d) (hlt : length d < newLength)
    (hbound : newLength < 2 ^ 31) (hcap : bytesToSectors newLength ≤ capacity)
    (hrun : inodeExtend d newLength s = .ok (d', true) s') :
    ∃ i', Mounted s' i' ∧ Resident s' i' d' ∧ length d' = newLength ∧
      (∀ p, p ∈ slotSectors s'.disk d' (Needs (sectors d')) ↔
        p ∈ slotSectors s.disk d (Needs (sectors d)) ∪ taken s s') ∧
      ∀ p, p ∉ taken s s' → s'.freeMap[p]? = s.freeMap[p]? := by
  obtain ⟨files, owner, h, hn⟩ := hm.exists_owned hr
  have hlen := hr.nonneg
  have hmono : sectors d ≤ bytesToSectors newLength := by
    have h₁ := bytesToSectors_eq_of_le hlen (length_bounds d).2 hr.cap
    have h₂ := bytesToSectors_eq_of_le (Int.le_trans hlen (Int.le_of_lt hlt)) hbound hcap
    rw [sectors, h₁, h₂]
    omega
  have hcan : CanAllocate s (slotsNeeded d newLength) := by
    by_contra hcan
    obtain ⟨_, _, _, _, hfalse, -⟩ := inodeExtend_false h hn hm.file hr.cap newLength hcan
    rw [hrun] at hfalse
    cases hfalse
  obtain ⟨e, s'', owner', hrun', hgrow, -⟩ := inodeExtend_true h hn newLength hmono hcap hcan
  rw [hrun] at hrun'
  cases hrun'
  have hlength : length (setLength e newLength) = newLength :=
    length_setLength e (by omega) hbound
  have hsectors : sectors (setLength e newLength) = bytesToSectors newLength := by
    rw [sectors, hlength]
  have hroots := sameRoots_setLength (Needs (bytesToSectors newLength)) e newLength
  have howned := hgrow.owned.setData hgrow.live hroots
  have hslots := hroots.slotSector (closed_needs _) s'.disk
  have hfile : s'.freeMapFile = true := hgrow.freeMapFile.trans hm.file
  obtain ⟨i', hm'⟩ := howned.mounted hfile
  have htaken : ∀ p, p ∈ taken s s' ↔ ∃ σ ∈ Needs (bytesToSectors newLength),
      σ ∉ Needs (sectors d) ∧ slotSector s'.disk e σ = p := by
    intro p
    constructor
    · rintro ⟨hclear, hset⟩
      by_contra hnone
      rw [hgrow.others p (fun hp => hp) fun σ hσ hσ₀ heq => hnone ⟨σ, hσ, hσ₀, heq⟩, hclear] at hset
      cases hset
    · rintro ⟨σ, hσ, hσ₀, rfl⟩
      exact ⟨hgrow.fresh σ hσ hσ₀, hgrow.owned.used _ _ (hgrow.maps σ hσ)⟩
  refine ⟨i', hm', howned.isResident (n := 1) hm' (by omega) (by rw [hsectors]; exact hcap) ?_
    (by decide), hlength, ?_, ?_⟩
  · rw [hsectors]
    exact update_self _ _ _
  · intro p
    rw [hsectors]
    constructor
    · rintro ⟨σ, hσ, rfl⟩
      rw [hslots σ hσ]
      by_cases hσ₀ : σ ∈ Needs (sectors d)
      · exact .inl ⟨σ, hσ₀, (hgrow.keeps σ hσ₀).symm⟩
      · exact .inr ((htaken _).mpr ⟨σ, hσ, hσ₀, rfl⟩)
    · rintro (⟨σ, hσ₀, rfl⟩ | hp)
      · refine ⟨σ, hgrow.sub hσ₀, ?_⟩
        rw [hslots σ (hgrow.sub hσ₀), hgrow.keeps σ hσ₀]
      · obtain ⟨σ, hσ, -, rfl⟩ := (htaken p).mp hp
        exact ⟨σ, hσ, hslots σ hσ⟩
  · intro p hp
    refine hgrow.others p (fun hc => hc) fun σ hσ hσ₀ heq => hp ?_
    exact (htaken p).mpr ⟨σ, hσ, hσ₀, heq⟩

/-- What holds of an inode that was built. -/
theorem Built.invariant {env : State → State → Prop} {s₀ s : State} {d₀ d : Memory}
    {T : Set Sector} {i : Inode} (hm : Mounted s₀ i) (hzero : length d₀ = 0)
    (hb : Built env s₀ d₀ T s d) :
    ∃ i', Mounted s i' ∧ Resident s i' d ∧
      (∀ p, p ∈ slotSectors s.disk d (Needs (sectors d)) ↔ p ∈ T) ∧
      ((∀ a b, env a b → b.freeMap = a.freeMap) →
        ∀ p, (p ∈ T → s₀.freeMap[p]? = some false) ∧ (p ∉ T → s.freeMap[p]? = s₀.freeMap[p]?)) := by
  induction hb with
  | start =>
    have hsectors : sectors d₀ = 0 := by
      rw [sectors, hzero]
      decide
    refine ⟨i, hm, resident_of_length_zero i hzero, fun p => ?_, fun _ p =>
      ⟨fun hp => hp.elim, fun _ => rfl⟩⟩
    rw [hsectors]
    refine iff_of_false ?_ (fun hp => hp)
    rintro ⟨σ, hσ, -⟩
    cases σ <;> simp at hσ
  | @extend T s s' d d' newLength hb hlt hbound hcap hrun ih =>
    obtain ⟨i', hm', hr', hT, hquiet⟩ := ih
    obtain ⟨i'', hm'', hr'', -, hsec, hothers⟩ :=
      inodeExtend_resident hm' hr' hlt hbound hcap hrun
    refine ⟨i'', hm'', hr'', fun p => ?_, fun henv p => ?_⟩
    · rw [hsec]
      exact or_congr (hT p) Iff.rfl
    · obtain ⟨hin, hout⟩ := hquiet henv p
      refine ⟨?_, ?_⟩
      · rintro (hp | hp)
        · exact hin hp
        · by_cases hpT : p ∈ T
          · exact hin hpT
          · rw [← hout hpT]
            exact hp.1
      · intro hp
        rw [hothers p fun hc => hp (.inr hc), hout fun hc => hp (.inl hc)]
  | @meanwhile T s s' d i₁ hb henv hm₁ hr₁ hdisk ih =>
    obtain ⟨i', hm', hr', hT, hquiet⟩ := ih
    have hslots := (closed_needs (sectors d)).slotSector_congr
      fun σ hσ _ => hdisk _ ((hT _).mp ⟨σ, hσ, rfl⟩)
    refine ⟨i₁, hm₁, hr₁, fun p => ?_, fun hsame p => ?_⟩
    · rw [← hT p]
      constructor
      · rintro ⟨σ, hσ, rfl⟩
        exact ⟨σ, hσ, (hslots σ hσ).symm⟩
      · rintro ⟨σ, hσ, rfl⟩
        exact ⟨σ, hσ, hslots σ hσ⟩
    · rw [hsame s s' henv]
      exact hquiet hsame p

open Classical in
/-- `inode_deallocate` undoes `inode_extend`: it releases the sectors that the calls
    allocated, each once, and nothing else. -/
theorem deallocate_undoes_extend {env : State → State → Prop} {s₀ s : State} {d₀ d : Memory}
    {T : Set Sector} {i : Inode} (hm : Mounted s₀ i) (hzero : length d₀ = 0)
    (hb : Built env s₀ d₀ T s d) :
    ∃ l s', l.Nodup ∧ (∀ p, p ∈ l ↔ p ∈ T) ∧ inodeDeallocate d s = .ok () s' ∧
      releaseAll l s = .ok () s' ∧
      (∀ p, s'.freeMap[p]? = if p ∈ T then some false else s.freeMap[p]?) ∧
      ((∀ a b, env a b → b.freeMap = a.freeMap) → s'.freeMap = s₀.freeMap) := by
  obtain ⟨i', hm', hr, hT, hquiet⟩ := hb.invariant hm hzero
  obtain ⟨files, owner, h, hn⟩ := hm'.exists_owned hr
  have hmaps := h.maps _ _ _ hn
  obtain ⟨s', owner', hrun, hall, hfree⟩ := Freeing.inodeDeallocate_eq (n := 1)
    (h.drop (by decide)) hm'.file (update_self _ _ _) rfl hr.cap hmaps
  have hbits : ∀ p, s'.freeMap[p]? = if p ∈ T then some false else s.freeMap[p]? := by
    intro p
    by_cases hp : p ∈ T
    · obtain ⟨σ, hσ, rfl⟩ := (hT p).mpr hp
      rw [if_pos hp]
      exact hfree.freed σ hσ
    · rw [if_neg hp]
      exact hfree.others p fun σ hσ heq => hp ((hT p).mp ⟨σ, hσ, heq⟩)
  refine ⟨_, s', ?_, ?_, hrun, hall, hbits, fun henv => ?_⟩
  · refine List.Nodup.map_on (fun σ hσ τ hτ heq => ?_) nodup_slotList
    exact hmaps.injOn (mem_slotList.mp hσ) (mem_slotList.mp hτ) heq
  · intro p
    rw [← hT p, List.mem_map]
    constructor
    · rintro ⟨σ, hσ, rfl⟩
      exact ⟨σ, mem_slotList.mp hσ, rfl⟩
    · rintro ⟨σ, hσ, rfl⟩
      exact ⟨σ, mem_slotList.mpr hσ, rfl⟩
  · apply List.ext_getElem?
    intro p
    obtain ⟨hin, hout⟩ := hquiet henv p
    rw [hbits p]
    split
    · rename_i hp
      exact (hin hp).symm
    · rename_i hp
      exact hout hp

/-- A file of 124 sectors, which has an indirect block, is allocated and released. -/
theorem deallocate_undoes_extend_small :
    ∃ d s s', inodeExtend zeros (124 * 512) (small 125) = .ok (d, true) s ∧
      inodeDeallocate d s = .ok () s' ∧ s'.freeMap = (small 125).freeMap := by
  have hm : Mounted (small 125) smallFreeMap := small_mounted (by decide)
  obtain ⟨files, owner, h, hn⟩ := hm.exists_owned (resident_of_length_zero _ length_zeros)
  obtain ⟨d, s, owner', hrun, -⟩ := inodeExtend_true h hn (124 * 512) (by decide) (by decide)
    (canAllocate_small.mpr (by decide +kernel))
  have hb : Built (fun _ _ => False) (small 125) zeros (∅ ∪ taken (small 125) s) s
      (setLength d (124 * 512)) :=
    .extend .start (by rw [length_zeros]; decide) (by decide) (by decide) hrun
  obtain ⟨l, s', -, -, hdealloc, -, -, hquiet⟩ := deallocate_undoes_extend hm length_zeros hb
  exact ⟨_, s, s', hrun, hdealloc, hquiet fun _ _ hc => hc.elim⟩

end Pintos.Fs
