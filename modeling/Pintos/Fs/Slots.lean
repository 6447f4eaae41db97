/-
  Pintos.Fs.Slots

  Which sectors belong to an inode.

  The pointers of an inode form a tree: every slot has a place, a word of the
  inode itself or of an index block, and the index block has a slot of its own.
  An inode of `cnt` sectors uses the slots in `Needs cnt`.

  An `Owner` says what a sector is used for.  Since it is a function of the
  sector, two slots that it accepts (`Maps`) have different sectors, across
  roles and across inodes.
-/

import Pintos.Fs.Inode

namespace Pintos.Fs

open Pintos.Base Pintos.Lib Function

/-- The pointers of an inode: to its sectors of data, to the indirect block, to
    the doubly-indirect block and to the second-level blocks. -/
inductive Slot where
  | data (i : Nat)
  | indirect
  | doubly
  | inner (o : Nat)
  deriving DecidableEq, Repr

namespace Slot

/-- The index block that holds the pointer; `none` for the inode itself. -/
def parent : Slot → Option Slot
  | data i =>
    if i < DIRECT_BLOCKS then none
    else if i - DIRECT_BLOCKS < PTRS_PER_SECTOR then some indirect
    else some (inner ((i - DIRECT_BLOCKS - PTRS_PER_SECTOR) / PTRS_PER_SECTOR))
  | indirect => none
  | doubly => none
  | inner _ => some doubly

/-- The offset of the pointer in its block. -/
def pos : Slot → Nat
  | data i =>
    if i < DIRECT_BLOCKS then 8 + 4 * i
    else if i - DIRECT_BLOCKS < PTRS_PER_SECTOR then 4 * (i - DIRECT_BLOCKS)
    else 4 * ((i - DIRECT_BLOCKS - PTRS_PER_SECTOR) % PTRS_PER_SECTOR)
  | indirect => 500
  | doubly => 504
  | inner o => 4 * o

/-- Where the pointer to a sector of data is. -/
theorem data_cases (i : Nat) : (i < 123 ∧ (data i).parent = none ∧ (data i).pos = 8 + 4 * i) ∨
      (123 ≤ i ∧ i < 251 ∧ (data i).parent = some indirect ∧ (data i).pos = 4 * (i - 123)) ∨
      ∃ o k, i = 251 + 128 * o + k ∧ k < 128 ∧ (data i).parent = some (inner o) ∧
        (data i).pos = 4 * k := by
  by_cases hdirect : i < 123
  · exact .inl ⟨hdirect, if_pos hdirect, if_pos hdirect⟩
  by_cases hindirect : i - 123 < 128
  · refine .inr (.inl ⟨by omega, by omega, ?_, ?_⟩)
    · exact (if_neg hdirect).trans (if_pos hindirect)
    · exact (if_neg hdirect).trans (if_pos hindirect)
  · refine .inr (.inr ⟨(i - 123 - 128) / 128, (i - 123 - 128) % 128, by omega, by omega, ?_, ?_⟩)
    · exact (if_neg hdirect).trans (if_neg hindirect)
    · exact (if_neg hdirect).trans (if_neg hindirect)

/-- What holds of a slot whenever it holds of the block that it is in holds of
    every slot: the tree has three levels. -/
theorem parent_induction {P : Slot → Prop} (step : ∀ σ : Slot, (∀ τ, σ.parent = some τ → P τ) → P σ)
    (σ : Slot) : P σ := by
  have hindirect : P indirect := step _ (by simp [parent])
  have hdoubly : P doubly := step _ (by simp [parent])
  have hinner : ∀ o, P (inner o) := by
    intro o
    apply step
    rintro τ hτ
    cases hτ
    exact hdoubly
  cases σ with
  | data i =>
    apply step
    intro τ hτ
    obtain ⟨-, hp, -⟩ | ⟨-, -, hp, -⟩ | ⟨o, -, -, -, hp, -⟩ := data_cases i
    · cases hp.symm.trans hτ
    · cases hp.symm.trans hτ
      exact hindirect
    · cases hp.symm.trans hτ
      exact hinner o
  | indirect => exact hindirect
  | doubly => exact hdoubly
  | inner o => exact hinner o

/-- A slot of the inode itself is before the end of its sector or is one of the
    two pointers there. -/
theorem data_pos_root {i : Nat} (h : (data i).parent = none) : (data i).pos + 4 ≤ 500 := by
  obtain ⟨hi, -, hpos⟩ | ⟨-, -, hp, -⟩ | ⟨o, -, -, -, hp, -⟩ := data_cases i
  · omega
  · cases hp.symm.trans h
  · cases hp.symm.trans h

/-- Sectors of data are not in the doubly-indirect block. -/
theorem data_parent_ne_doubly (i : Nat) : (data i).parent ≠ some doubly := by
  intro h
  obtain ⟨-, hp, -⟩ | ⟨-, -, hp, -⟩ | ⟨o, -, -, -, hp, -⟩ := data_cases i
  · cases hp.symm.trans h
  · cases hp.symm.trans h
  · cases hp.symm.trans h

theorem data_pos_disjoint {i j : Nat} (hne : i ≠ j) (h : (data i).parent = (data j).parent) :
    (data i).pos + 4 ≤ (data j).pos ∨ (data j).pos + 4 ≤ (data i).pos := by
  obtain ⟨-, hp, hpos⟩ | ⟨hi, -, hp, hpos⟩ | ⟨o, k, hi, -, hp, hpos⟩ := data_cases i <;>
    obtain ⟨-, hp', hpos'⟩ | ⟨hj, -, hp', hpos'⟩ | ⟨o', k', hj, -, hp', hpos'⟩ := data_cases j <;>
    rw [hp, hp'] at h <;> cases h <;> omega

/-- Two slots of one block are four bytes apart. -/
theorem pos_disjoint {σ τ : Slot} (hne : σ ≠ τ) (h : σ.parent = τ.parent) :
    σ.pos + 4 ≤ τ.pos ∨ τ.pos + 4 ≤ σ.pos := by
  cases σ with
  | data i =>
    cases τ with
    | data j => exact data_pos_disjoint (fun hij => hne (by rw [hij])) h
    | indirect => exact .inl (data_pos_root h)
    | doubly => exact .inl (Nat.le_trans (data_pos_root h) (by decide))
    | inner o => exact absurd h (data_parent_ne_doubly i)
  | indirect =>
    cases τ with
    | data j => exact .inr (data_pos_root h.symm)
    | indirect => exact absurd rfl hne
    | doubly => exact .inl (by decide)
    | inner o => cases h
  | doubly =>
    cases τ with
    | data j => exact .inr (Nat.le_trans (data_pos_root h.symm) (by decide))
    | indirect => exact .inr (by decide)
    | doubly => exact absurd rfl hne
    | inner o => cases h
  | inner o =>
    cases τ with
    | data j => exact absurd h.symm (data_parent_ne_doubly j)
    | indirect => cases h
    | doubly => cases h
    | inner o' =>
      have : o ≠ o' := fun ho => hne (by rw [ho])
      simp only [pos]
      omega

/-- Sectors of data hold no pointers. -/
theorem parent_ne_data (σ : Slot) (i : Nat) : σ.parent ≠ some (data i) := by
  intro h
  cases σ with
  | data j =>
    obtain ⟨-, hp, -⟩ | ⟨-, -, hp, -⟩ | ⟨o, -, -, -, hp, -⟩ := data_cases j
    · cases hp.symm.trans h
    · cases hp.symm.trans h
    · cases hp.symm.trans h
  | indirect => cases h
  | doubly => cases h
  | inner o => cases h

end Slot

/-! ## The sector of a slot -/

/-- The sector that a slot of the inode `d` points to. -/
def slotSector (disk : Sector → Memory) (d : Memory) : Slot → Sector
  | .indirect => indirect d
  | .doubly => doublyIndirect d
  | .inner o => word (disk (doublyIndirect d)) (4 * o)
  | .data i =>
    if i < DIRECT_BLOCKS then word d (8 + 4 * i)
    else if i - DIRECT_BLOCKS < PTRS_PER_SECTOR then
      word (disk (indirect d)) (4 * (i - DIRECT_BLOCKS))
    else
      let idx := i - DIRECT_BLOCKS - PTRS_PER_SECTOR
      word (disk (word (disk (doublyIndirect d)) (4 * (idx / PTRS_PER_SECTOR))))
        (4 * (idx % PTRS_PER_SECTOR))

/-- The block that a pointer is in. -/
def pointerBlock (disk : Sector → Memory) (d : Memory) : Option Slot → Memory
  | none => d
  | some σ => disk (slotSector disk d σ)

theorem slotSector_eq (disk : Sector → Memory) (d : Memory) (σ : Slot) :
    slotSector disk d σ = word (pointerBlock disk d σ.parent) σ.pos := by
  cases σ with
  | data i =>
    simp only [slotSector, Slot.parent, Slot.pos]
    split
    · rfl
    · split <;> rfl
  | indirect => rfl
  | doubly => rfl
  | inner o => rfl

/-- The pointers of the indirect block. -/
theorem slotSector_indirect {disk : Sector → Memory} {d : Memory} {j : Nat} (h : j < 128) :
    slotSector disk d (.data (123 + j)) = word (disk (indirect d)) (4 * j) := by
  rw [slotSector_eq]
  obtain ⟨hlt, -⟩ | ⟨-, -, hp, hpos⟩ | ⟨o, k, hi, -⟩ := Slot.data_cases (123 + j)
  · omega
  · rw [hp, hpos, Nat.add_sub_cancel_left]
    rfl
  · omega

/-- The pointers of a second-level block. -/
theorem slotSector_inner {disk : Sector → Memory} {d : Memory} {o k : Nat} (h : k < 128) :
    slotSector disk d (.data (251 + 128 * o + k)) =
      word (disk (slotSector disk d (.inner o))) (4 * k) := by
  rw [slotSector_eq]
  obtain ⟨hlt, -⟩ | ⟨-, hlt, -⟩ | ⟨o', k', hi, hk', hp, hpos⟩ :=
    Slot.data_cases (251 + 128 * o + k)
  · omega
  · omega
  · rw [hp, hpos, show o' = o by omega, show k' = k by omega]
    rfl

/-! ## Sets of slots -/

/-- The block of every pointer in the set is in it. -/
def Closed (S : Set Slot) : Prop := ∀ σ ∈ S, ∀ τ, σ.parent = some τ → τ ∈ S

/-- The slots that an inode of `cnt` sectors uses. -/
def Needs (cnt : Nat) : Set Slot := fun σ =>
  match σ with
  | .data i => i < cnt
  | .indirect => DIRECT_BLOCKS < cnt
  | .doubly => DIRECT_BLOCKS + PTRS_PER_SECTOR < cnt
  | .inner o => DIRECT_BLOCKS + PTRS_PER_SECTOR + PTRS_PER_SECTOR * o < cnt

section Needs

variable {cnt i o : Nat}

@[simp] theorem data_mem_needs : Slot.data i ∈ Needs cnt ↔ i < cnt := Iff.rfl

@[simp] theorem indirect_mem_needs : Slot.indirect ∈ Needs cnt ↔ 123 < cnt := Iff.rfl

@[simp] theorem doubly_mem_needs : Slot.doubly ∈ Needs cnt ↔ 251 < cnt := Iff.rfl

@[simp] theorem inner_mem_needs : Slot.inner o ∈ Needs cnt ↔ 251 + 128 * o < cnt := Iff.rfl

theorem closed_needs (cnt : Nat) : Closed (Needs cnt) := by
  intro σ hσ τ hτ
  cases σ with
  | data i =>
    rw [data_mem_needs] at hσ
    obtain ⟨-, hp, -⟩ | ⟨hi, -, hp, -⟩ | ⟨o, k, hi, -, hp, -⟩ := Slot.data_cases i
    · cases hp.symm.trans hτ
    · cases hp.symm.trans hτ
      rw [indirect_mem_needs]
      omega
    · cases hp.symm.trans hτ
      rw [inner_mem_needs]
      omega
  | indirect => cases hτ
  | doubly => cases hτ
  | inner o =>
    cases hτ
    rw [inner_mem_needs] at hσ
    rw [doubly_mem_needs]
    omega

theorem needs_mono {m n : Nat} (h : m ≤ n) : Needs m ⊆ Needs n := by
  intro σ hσ
  cases σ with
  | data i =>
    rw [data_mem_needs] at *
    omega
  | indirect =>
    rw [indirect_mem_needs] at *
    omega
  | doubly =>
    rw [doubly_mem_needs] at *
    omega
  | inner o =>
    rw [inner_mem_needs] at *
    omega

end Needs

theorem Closed.insert {S : Set Slot} {σ : Slot} (h : Closed S)
    (hσ : ∀ τ, σ.parent = some τ → τ ∈ S) : Closed (insert σ S) := by
  intro ρ hρ τ hτ
  rcases hρ with rfl | hρ
  · exact .inr (hσ τ hτ)
  · exact .inr (h ρ hρ τ hτ)

/-- The slots of an inode depend on its index blocks only. -/
theorem Closed.slotSector_congr {S : Set Slot} (hS : Closed S) {disk disk' : Sector → Memory}
    {d : Memory} (h : ∀ σ ∈ S, (∃ τ, Slot.parent τ = some σ) →
      disk' (slotSector disk d σ) = disk (slotSector disk d σ)) :
    ∀ σ ∈ S, slotSector disk' d σ = slotSector disk d σ := by
  -- by induction from the root of the tree
  intro σ
  induction σ using Slot.parent_induction with
  | step σ ih =>
    intro hσ
    rw [slotSector_eq, slotSector_eq]
    cases hp : σ.parent with
    | none => rfl
    | some τ =>
      have hτ := hS σ hσ τ hp
      simp only [pointerBlock]
      rw [ih τ hp hτ, h τ hτ ⟨σ, hp⟩]

/-! ## Owners -/

/-- What a sector is used for: the inode it belongs to and its slot there,
    `none` for the sector of the inode itself. -/
abbrev Owner := Sector → Option (Sector × Option Slot)

/-- The slots of the inode `n` point to sectors that the owner gives to them. -/
def Maps (disk : Sector → Memory) (d : Memory) (S : Set Slot) (owner : Owner) (n : Sector) : Prop :=
  ∀ σ ∈ S, owner (slotSector disk d σ) = some (n, some σ)

/-- Only sectors of data of the inode `n` are written. -/
def DataOnly (owner : Owner) (n : Sector) (disk disk' : Sector → Memory) : Prop :=
  ∀ p, (∀ j, owner p ≠ some (n, some (.data j))) → disk' p = disk p

theorem DataOnly.refl (owner : Owner) (n : Sector) (disk : Sector → Memory) :
    DataOnly owner n disk disk := fun _ _ => rfl

theorem DataOnly.trans {owner : Owner} {n : Sector} {disk₁ disk₂ disk₃ : Sector → Memory}
    (h : DataOnly owner n disk₁ disk₂) (h' : DataOnly owner n disk₂ disk₃) :
    DataOnly owner n disk₁ disk₃ := fun p hp => (h' p hp).trans (h p hp)

namespace Maps

variable {disk disk' : Sector → Memory} {d : Memory} {S T : Set Slot} {owner owner' : Owner}
  {n : Sector} {σ τ : Slot}

theorem mono (h : Maps disk d T owner n) (hS : S ⊆ T) : Maps disk d S owner n :=
  fun σ hσ => h σ (hS hσ)

/-- Different slots have different sectors. -/
theorem injOn (h : Maps disk d S owner n) (hσ : σ ∈ S) (hτ : τ ∈ S)
    (heq : slotSector disk d σ = slotSector disk d τ) : σ = τ := by
  have hσo := h σ hσ
  rw [heq, h τ hτ] at hσo
  simpa using hσo.symm

theorem slotSector_congr (h : Maps disk d S owner n) (hS : Closed S)
    (hdisk : ∀ p σ, owner p = some (n, some σ) → (∃ τ, Slot.parent τ = some σ) → disk' p = disk p) :
    ∀ σ ∈ S, slotSector disk' d σ = slotSector disk d σ :=
  hS.slotSector_congr fun σ hσ => hdisk _ σ (h σ hσ)

/-- Writes that leave the index blocks alone leave the slots alone. -/
theorem congr (h : Maps disk d S owner n) (hS : Closed S)
    (hdisk : ∀ p σ, owner p = some (n, some σ) → (∃ τ, Slot.parent τ = some σ) → disk' p = disk p) :
    Maps disk' d S owner n := by
  intro σ hσ
  rw [h.slotSector_congr hS hdisk σ hσ]
  exact h σ hσ

/-- An index block is not a sector of data. -/
theorem index_of_dataOnly {m : Sector} (h : DataOnly owner m disk disk') {p : Sector}
    (hp : owner p = some (n, some σ)) (hσ : ∃ τ, Slot.parent τ = some σ) : disk' p = disk p := by
  apply h
  intro j hj
  obtain ⟨τ, hτ⟩ := hσ
  rw [hp] at hj
  cases hj
  exact Slot.parent_ne_data τ j hτ

/-- More sectors may get an owner. -/
theorem owner_mono (h : Maps disk d S owner n)
    (howner : ∀ p r, owner p = some r → owner' p = some r) : Maps disk d S owner' n :=
  fun σ hσ => howner _ _ (h σ hσ)

/-! ### A new pointer -/

/-- A new pointer in the inode itself leaves the other slots alone. -/
theorem slotSector_setWord (hS : Closed S) (hσ : σ ∉ S) (hp : σ.parent = none) (p : Sector) :
    ∀ τ ∈ S, slotSector disk (setWord d σ.pos p) τ = slotSector disk d τ := by
  intro τ
  induction τ using Slot.parent_induction with
  | step τ ih =>
    intro hτ
    rw [slotSector_eq, slotSector_eq]
    cases hparent : τ.parent with
    | none =>
      have hne : σ ≠ τ := fun h => hσ (h ▸ hτ)
      simp only [pointerBlock]
      rw [word_setWord_of_disjoint (Slot.pos_disjoint hne (hp.trans hparent.symm)).symm]
    | some ρ =>
      simp only [pointerBlock]
      rw [ih ρ hparent (hS τ hτ ρ hparent)]

section

variable (h : Maps disk d S owner n) (hS : Closed S) (hσ : σ ∉ S)

include h hS hσ

/-- A new pointer in the inode itself. -/
theorem insert_root
    (hp : σ.parent = none) {p : Sector} (hlt : p < 2 ^ 32) (hfree : owner p = none) :
    Maps disk (setWord d σ.pos p) (insert σ S) (update owner p (some (n, some σ))) n := by
  rintro τ (rfl | hτ)
  · rw [slotSector_eq, hp]
    simp only [pointerBlock]
    rw [word_setWord_self hlt, update_self]
  · have howner := h τ hτ
    rw [slotSector_setWord hS hσ hp p τ hτ, update_of_ne, howner]
    rintro rfl
    rw [howner] at hfree
    cases hfree

/-- A new pointer in an index block leaves the other slots alone. -/
theorem slotSector_update {ρ : Slot} (hp : σ.parent = some ρ) (hρ : ρ ∈ S) (p : Sector) :
    ∀ τ ∈ S, slotSector (update disk (slotSector disk d ρ)
      (setWord (disk (slotSector disk d ρ)) σ.pos p)) d τ = slotSector disk d τ := by
  intro τ
  induction τ using Slot.parent_induction with
  | step τ ih =>
    intro hτ
    rw [slotSector_eq disk d τ, slotSector_eq _ d τ]
    cases hparent : τ.parent with
    | none => rfl
    | some ρ' =>
      have hρ' := hS τ hτ ρ' hparent
      simp only [pointerBlock]
      rw [ih ρ' hparent hρ']
      by_cases heq : ρ' = ρ
      · -- a pointer of the block that is written
        subst heq
        have hne : σ ≠ τ := fun h => hσ (h ▸ hτ)
        rw [update_self,
          word_setWord_of_disjoint (Slot.pos_disjoint hne (hp.trans hparent.symm)).symm]
      · rw [update_of_ne fun hsec => heq (h.injOn hρ' hρ hsec)]

/-- A new pointer in an index block. -/
theorem insert_block {ρ : Slot}
    (hp : σ.parent = some ρ) (hρ : ρ ∈ S) {p : Sector} (hlt : p < 2 ^ 32) (hfree : owner p = none) :
    Maps (update disk (slotSector disk d ρ)
      (setWord (disk (slotSector disk d ρ)) σ.pos p)) d (insert σ S)
      (update owner p (some (n, some σ))) n := by
  have hkeep := h.slotSector_update hS hσ hp hρ p
  rintro τ (rfl | hτ)
  · rw [slotSector_eq, hp]
    simp only [pointerBlock]
    rw [hkeep ρ hρ, update_self, word_setWord_self hlt, update_self]
  · have howner := h τ hτ
    rw [hkeep τ hτ, update_of_ne, howner]
    rintro rfl
    rw [howner] at hfree
    cases hfree

end

end Maps

end Pintos.Fs
