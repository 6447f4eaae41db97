/-
  Pintos.Fs.Extend

  `inode_extend`: which sectors it allocates, when it succeeds, and what a failed
  call leaves behind.
-/

import Pintos.Fs.Growing

namespace Pintos.Fs

open Pintos.Base Pintos.Lib Function

/-! ## The slots of one more sector -/

/-- The sectors that sector `i` of an inode takes: itself, and the index blocks
    that it is the first one in. -/
def slotsAt (i : Nat) : Nat :=
  if i < DIRECT_BLOCKS then 1
  else if i < DIRECT_BLOCKS + PTRS_PER_SECTOR then if i = DIRECT_BLOCKS then 2 else 1
  else if i = DIRECT_BLOCKS + PTRS_PER_SECTOR then 3
  else if (i - DIRECT_BLOCKS - PTRS_PER_SECTOR) % PTRS_PER_SECTOR = 0 then 2
  else 1

theorem slotsAt_direct {i : Nat} (h : i < 123) : slotsAt i = 1 := if_pos h

theorem slotsAt_indirect {i : Nat} (h : 123 ≤ i) (h' : i < 251) :
    slotsAt i = if i = 123 then 2 else 1 :=
  (if_neg (Nat.not_lt.mpr h)).trans (if_pos h')

theorem slotsAt_pos (i : Nat) : 0 < slotsAt i := by
  unfold slotsAt
  repeat' split
  all_goals decide

theorem slotsAt_inner {i o k : Nat} (h : i = 251 + 128 * o + k) (hk : k < 128) (hi : i ≠ 251) :
    slotsAt i = if k = 0 then 2 else 1 := by
  have hdirect : ¬ i < 123 := by omega
  have hindirect : ¬ i < 251 := by omega
  have hmod : (i - 123 - 128) % 128 = k := by omega
  refine (if_neg hdirect).trans ((if_neg hindirect).trans ((if_neg hi).trans ?_))
  rw [show (i - DIRECT_BLOCKS - PTRS_PER_SECTOR) % PTRS_PER_SECTOR = k from hmod]

/-- The sectors that growing from sector `i` on by `n` sectors takes. -/
def slotsFrom (i : Nat) : Nat → Nat
  | 0 => 0
  | n + 1 => slotsAt i + slotsFrom (i + 1) n

/-- The iterations up to the first one behind the last sector that an inode can
    have. -/
def iterations (i m : Nat) : Nat := min m (capacity + 1 - i)

theorem slotsFrom_iterations_succ {i m : Nat} (h : i ≤ capacity) :
    slotsFrom i (iterations i (m + 1)) = slotsFrom (i + 1) (iterations (i + 1) m) + slotsAt i := by
  have hiter : iterations i (m + 1) = iterations (i + 1) m + 1 := by
    simp only [iterations]
    omega
  rw [hiter, slotsFrom, Nat.add_comm]

section Needs

variable {i o k : Nat}

theorem needs_succ_direct (h : i < 123) : Needs (i + 1) = insert (.data i) (Needs i) := by
  ext σ
  cases σ <;> simp [Set.mem_insert_iff] <;> omega

theorem needs_succ_indirect (h : 123 ≤ i) (h' : i < 251) :
    Needs (i + 1) = insert (.data i) (insert .indirect (Needs i)) := by
  ext σ
  cases σ <;> simp [Set.mem_insert_iff] <;> omega

theorem needs_succ_inner (h : i = 251 + 128 * o + k) (hk : k < 128) (hi : i ≠ 251) :
    Needs (i + 1) = insert (.data i) (insert (.inner o) (Needs i)) := by
  ext σ
  cases σ <;> simp [Set.mem_insert_iff] <;> omega

theorem needs_succ_doubly :
    Needs (251 + 1) = insert (.data 251) (insert (.inner 0) (insert .doubly (Needs 251))) := by
  ext σ
  cases σ <;> simp [Set.mem_insert_iff] <;> omega

end Needs

namespace Growing

variable {n : Sector} {files : Files} {s₀ : State} {d₀ : Memory} {S₀ : Set Slot} {owner₀ : Owner}
  {s : State} {d : Memory} {S : Set Slot} {owner : Owner} {X : Set Sector} {p : Sector} {i o k : Nat}

/-! ## Steps of an iteration -/

/-- A sector is allocated and cleared. -/
theorem allocateZeroed (h : Growing n files s₀ d₀ S₀ owner₀ s d S owner X)
    (hcan : CanAllocate s 1) :
    ∃ p s₁ s', freeMapAllocate 1 s = .ok (some p) s₁ ∧ blockWrite p zeros s₁ = .ok () s' ∧ p ∉ X ∧
      Growing n files s₀ d₀ S₀ owner₀ s' d S owner (insert p X) ∧ s'.disk p = zeros ∧
      (∀ q, q ≠ p → (∀ j, owner q ≠ some (FREE_MAP_SECTOR, some (.data j))) →
        s'.disk q = s.disk q) ∧
      ∀ k, CanAllocate s (k + 1) ↔ CanAllocate s' k := by
  obtain ⟨p, s₁, hrun, hX, hgrow, hdisk, hcount⟩ := h.allocate hcan
  obtain ⟨hwrite, hgrow'⟩ := hgrow.writePending (.inl rfl) zeros
  refine ⟨p, s₁, _, hrun, hwrite, hX, hgrow', update_self _ _ _, ?_, hcount⟩
  intro q hq howner
  rw [State.setDisk_disk, update_of_ne hq]
  exact hdisk q howner

/-- An index block is missing: `new_sector` is given back and the call fails. -/
theorem allocate_fails (h : Growing n files s₀ d₀ S₀ owner₀ s d S owner {p})
    (hfile : s₀.freeMapFile = true) (hcan : ¬ CanAllocate s 1) :
    ∃ s₁ s', freeMapAllocate 1 s = .ok none s₁ ∧ extendFails d p s₁ = .ok (d, false) s' ∧
      Growing n files s₀ d₀ S₀ owner₀ s' d S owner ∅ := by
  obtain ⟨s₁, halloc, hgrow⟩ := h.allocate_none hcan
  obtain ⟨s', hrun, hgrow'⟩ := hgrow.release (hgrow.freeMapFile.trans hfile) rfl
  rw [Set.sdiff_self] at hgrow'
  refine ⟨s₁, s', halloc, ?_, hgrow'⟩
  rw [extendFails, bind_ok hrun]
  rfl

theorem setPtr_eq {b : Memory} {j : Nat} (h : j < PTRS_PER_SECTOR) :
    setPtr b j p s = .ok (setWord b (4 * j) p) s := by
  rw [setPtr, if_pos h]
  rfl

/-- `new_sector` is entered into the indirect block. -/
theorem fillIndirect_eq (h : Growing n files s₀ d₀ S₀ owner₀ s d S owner X) (hp : p ∈ X)
    (hzero : s.disk p = zeros) (hi : 123 ≤ i) (hi' : i < 251) (hS : Slot.indirect ∈ S)
    (hσ : Slot.data i ∉ S) :
    ∃ s', fillIndirect d (i - 123) p s = .ok (d, true) s' ∧
      Growing n files s₀ d₀ S₀ owner₀ s' d (insert (.data i) S)
        (update owner p (some (n, some (.data i)))) (X \ {p}) ∧
      ∀ k, CanAllocate s k ↔ CanAllocate s' k := by
  obtain ⟨hlt, -, -⟩ | ⟨-, -, hparent, hpos⟩ | ⟨o, k, hi'', -, -, -⟩ := Slot.data_cases i
  · omega
  · obtain ⟨hwrite, hgrow⟩ := h.linkBlock hp hσ hparent hS fun _ _ => hzero
    rw [hpos] at hwrite hgrow
    refine ⟨_, ?_, hgrow, fun _ => Iff.rfl⟩
    have hread : blockRead (indirect d) s = _ := blockRead_eq (h.owned.onDevice _ _ (h.maps _ hS))
    have hwrite' : blockWrite (indirect d) (setWord (s.disk (indirect d)) (4 * (i - 123)) p) s = _ :=
      hwrite
    rw [fillIndirect, bind_ok hread, bind_ok (setPtr_eq (show i - 123 < 128 by omega)),
      bind_ok hwrite']
    rfl
  · omega

/-- `new_sector` is entered into a second-level block. -/
theorem fillInner_eq (h : Growing n files s₀ d₀ S₀ owner₀ s d S owner X) (hp : p ∈ X)
    (hzero : s.disk p = zeros) (hi : i = 251 + 128 * o + k) (ho : o < 128) (hk : k < 128)
    (hS : Slot.inner o ∈ S) (hσ : Slot.data i ∉ S) :
    ∃ s', fillInner d (s.disk (doublyIndirect d)) o k p s = .ok (d, true) s' ∧
      Growing n files s₀ d₀ S₀ owner₀ s' d (insert (.data i) S)
        (update owner p (some (n, some (.data i)))) (X \ {p}) ∧
      ∀ k, CanAllocate s k ↔ CanAllocate s' k := by
  obtain ⟨hlt, -, -⟩ | ⟨-, hlt, -, -⟩ | ⟨o', k', hi', hk', hparent, hpos⟩ := Slot.data_cases i
  · omega
  · omega
  · obtain rfl : o' = o := by omega
    obtain rfl : k' = k := by omega
    obtain ⟨hwrite, hgrow⟩ := h.linkBlock hp hσ hparent hS fun _ _ => hzero
    rw [hpos] at hwrite hgrow
    refine ⟨_, ?_, hgrow, fun _ => Iff.rfl⟩
    have hread := blockRead_eq (s := s) (h.owned.onDevice _ _ (h.maps _ hS))
    rw [slotSector] at hread hwrite
    rw [fillInner, bind_ok (ptr_eq ho), bind_ok hread, bind_ok (setPtr_eq hk), bind_ok hwrite]
    rfl

/-! ## Sectors of the indirect block -/

theorem extendIndirect_true (h : Growing n files s₀ d₀ S₀ owner₀ s d (Needs i) owner {p})
    (hzero : s.disk p = zeros) (hi : 123 ≤ i) (hi' : i < 251)
    (hcan : CanAllocate s (slotsAt i - 1)) :
    ∃ d' s' owner', extendIndirect d (i - 123) p s = .ok (d', true) s' ∧
      Growing n files s₀ d₀ S₀ owner₀ s' d' (Needs (i + 1)) owner' ∅ ∧
      ∀ k, CanAllocate s (k + (slotsAt i - 1)) ↔ CanAllocate s' k := by
  rw [slotsAt_indirect hi hi'] at hcan ⊢
  rw [needs_succ_indirect hi hi']
  by_cases hfirst : i = 123
  · -- the indirect block is allocated first
    rw [if_pos hfirst] at hcan ⊢
    subst hfirst
    obtain ⟨q, s₁, s₂, halloc, hwrite, hq, hgrow, -, hdisk, hcount⟩ := h.allocateZeroed hcan
    have hqp : p ≠ q := fun heq => hq heq.symm
    have hfree := (h.pending p rfl).2.2
    have hlink := hgrow.linkRoot (σ := .indirect) (.inl rfl) (by simp) rfl (fun _ hc => by cases hc)
    rw [Set.insert_sdiff_self_of_notMem hq] at hlink
    have hlt := hgrow.owned.lt_two_pow (hgrow.pending q (.inl rfl)).2.1
    have hzero₂ : s₂.disk p = zeros := by
      rw [hdisk p hqp fun j hj => by rw [hfree] at hj; cases hj]
      exact hzero
    obtain ⟨s', hrun, hgrow', hcount'⟩ :=
      hlink.fillIndirect_eq (i := 123) rfl hzero₂ (by decide) (by decide) (.inl rfl) (by simp)
    rw [Set.sdiff_self] at hgrow'
    refine ⟨_, s', _, ?_, hgrow', fun k => (hcount k).trans (hcount' k)⟩
    have hwrite' : blockWrite (indirect (setIndirect d q)) zeros s₁ = .ok () s₂ := by
      rw [indirect, setIndirect, word_setWord_self hlt]
      exact hwrite
    rw [extendIndirect, if_pos rfl, bind_ok halloc]
    simp only
    rw [bind_ok hwrite']
    exact hrun
  · rw [if_neg hfirst] at hcan ⊢
    have hS : Slot.indirect ∈ Needs i := by
      rw [indirect_mem_needs]
      omega
    obtain ⟨s', hrun, hgrow, hcount⟩ := h.fillIndirect_eq rfl hzero hi hi' hS (by simp)
    rw [Set.sdiff_self] at hgrow
    rw [Set.insert_eq_of_mem hS]
    refine ⟨d, s', _, ?_, hgrow, hcount⟩
    rw [extendIndirect, if_neg (by omega)]
    exact hrun

theorem extendIndirect_false (h : Growing n files s₀ d₀ S₀ owner₀ s d (Needs i) owner {p})
    (hfile : s₀.freeMapFile = true) (hi : 123 ≤ i) (hi' : i < 251)
    (hcan : ¬ CanAllocate s (slotsAt i - 1)) :
    ∃ s', extendIndirect d (i - 123) p s = .ok (d, false) s' ∧
      Growing n files s₀ d₀ S₀ owner₀ s' d (Needs i) owner ∅ := by
  rw [slotsAt_indirect hi hi'] at hcan
  by_cases hfirst : i = 123
  · rw [if_pos hfirst] at hcan
    obtain ⟨s₁, s', halloc, hrun, hgrow⟩ := h.allocate_fails hfile hcan
    refine ⟨s', ?_, hgrow⟩
    rw [extendIndirect, if_pos (by omega), bind_ok halloc]
    exact hrun
  · rw [if_neg hfirst] at hcan
    exact absurd (canAllocate_zero s) hcan

/-! ## Sectors of second-level blocks -/

section

variable (h : Growing n files s₀ d₀ S₀ owner₀ s d S owner {p})

include h

theorem extendInner_true
    (hzero : s.disk p = zeros) (hi : i = 251 + 128 * o + k) (ho : o < 128) (hk : k < 128)
    (hdoubly : Slot.doubly ∈ S) (hinner : Slot.inner o ∈ S ↔ k ≠ 0) (hdata : Slot.data i ∉ S)
    (hcan : k = 0 → CanAllocate s 1) :
    ∃ s' owner', extendInner d (i - 251) p s = .ok (d, true) s' ∧
      Growing n files s₀ d₀ S₀ owner₀ s' d (insert (.data i) (insert (.inner o) S)) owner' ∅ ∧
      ∀ m, CanAllocate s (m + if k = 0 then 1 else 0) ↔ CanAllocate s' m := by
  have hread : blockRead (doublyIndirect d) s = _ :=
    blockRead_eq (h.owned.onDevice _ _ (h.maps _ hdoubly))
  have hdiv : (i - 251) / PTRS_PER_SECTOR = o := by
    simp only [PTRS_PER_SECTOR]
    omega
  have hmod : (i - 251) % PTRS_PER_SECTOR = k := by
    simp only [PTRS_PER_SECTOR]
    omega
  rw [extendInner, bind_ok hread, hdiv, hmod]
  by_cases hfirst : k = 0
  · -- the second-level block is allocated first
    simp only [if_pos hfirst]
    obtain ⟨q, s₁, s₂, halloc, hwrite, hq, hgrow, -, hdisk, hcount⟩ :=
      h.allocateZeroed (hcan hfirst)
    have hqp : p ≠ q := fun heq => hq heq.symm
    have hfree := (h.pending p rfl).2.2
    have hfreeq := (hgrow.pending q (.inl rfl)).2.2
    have hblock : s₂.disk (doublyIndirect d) = s.disk (doublyIndirect d) := by
      apply hdisk
      · exact h.slot_ne_of_none hdoubly hfreeq
      · intro j hj
        cases (h.maps _ hdoubly).symm.trans hj
    have hnew : Slot.inner o ∉ S := fun hin => hinner.mp hin hfirst
    have hpne : p ≠ doublyIndirect d := (h.slot_ne_of_none hdoubly hfree).symm
    obtain ⟨hwrite', hlink⟩ :=
      hgrow.linkBlock (σ := .inner o) (.inl rfl) hnew rfl hdoubly (fun _ hc => by cases hc)
    rw [Set.insert_sdiff_self_of_notMem hq] at hlink
    have hzero' : (s₂.setDisk (update s₂.disk (doublyIndirect d)
        (setWord (s₂.disk (doublyIndirect d)) (4 * o) q))).disk p = zeros := by
      rw [State.setDisk_disk, update_of_ne hpne,
        hdisk p hqp fun j hj => by rw [hfree] at hj; cases hj]
      exact hzero
    obtain ⟨s', hrun, hgrow', hcount'⟩ := hlink.fillInner_eq rfl hzero' hi ho hk (.inl rfl)
      (by rintro (hc | hc); cases hc; exact hdata hc)
    rw [Set.sdiff_self] at hgrow'
    refine ⟨s', _, ?_, hgrow', fun m => (hcount m).trans (hcount' m)⟩
    rw [bind_ok halloc]
    simp only
    have hwrite'' : blockWrite (doublyIndirect d)
        (setWord (s₂.disk (doublyIndirect d)) (4 * o) q) s₂ = _ := hwrite'
    have hself : (s₂.setDisk (update s₂.disk (doublyIndirect d)
        (setWord (s₂.disk (doublyIndirect d)) (4 * o) q))).disk (doublyIndirect d) =
        setWord (s₂.disk (doublyIndirect d)) (4 * o) q := update_self _ _ _
    rw [bind_ok hwrite, bind_ok (setPtr_eq ho), ← hblock, bind_ok hwrite'', ← hself]
    exact hrun
  · simp only [if_neg hfirst]
    have hin : Slot.inner o ∈ S := hinner.mpr hfirst
    obtain ⟨s', hrun, hgrow, hcount⟩ := h.fillInner_eq rfl hzero hi ho hk hin hdata
    rw [Set.sdiff_self] at hgrow
    rw [Set.insert_eq_of_mem hin]
    exact ⟨s', _, hrun, hgrow, hcount⟩

theorem extendInner_false
    (hfile : s₀.freeMapFile = true) (hi : i = 251 + 128 * o) (hdoubly : Slot.doubly ∈ S)
    (hcan : ¬ CanAllocate s 1) :
    ∃ s', extendInner d (i - 251) p s = .ok (d, false) s' ∧
      Growing n files s₀ d₀ S₀ owner₀ s' d S owner ∅ := by
  have hread : blockRead (doublyIndirect d) s = _ :=
    blockRead_eq (h.owned.onDevice _ _ (h.maps _ hdoubly))
  obtain ⟨s₁, s', halloc, hrun, hgrow⟩ := h.allocate_fails hfile hcan
  refine ⟨s', ?_, hgrow⟩
  have hmod : (i - 251) % PTRS_PER_SECTOR = 0 := by
    simp only [PTRS_PER_SECTOR]
    omega
  rw [extendInner, bind_ok hread, if_pos hmod, bind_ok halloc]
  exact hrun

/-- Behind the last sector that an inode can have, `inode_extend` leaves the
    doubly-indirect block. -/
theorem extendInner_indexRange
    (hi : i = 251 + 128 * 128) (hdoubly : Slot.doubly ∈ S) (hcan : CanAllocate s 1) :
    ∃ s', extendInner d (i - 251) p s = .error .indexRange s' := by
  have hread : blockRead (doublyIndirect d) s = _ :=
    blockRead_eq (h.owned.onDevice _ _ (h.maps _ hdoubly))
  obtain ⟨q, s₁, s₂, halloc, hwrite, -⟩ := h.allocateZeroed hcan
  refine ⟨s₂, ?_⟩
  have hmod : (i - 251) % PTRS_PER_SECTOR = 0 := by
    rw [hi]
    rfl
  have hdiv : (i - 251) / PTRS_PER_SECTOR = 128 := by
    rw [hi]
    rfl
  have hset : setPtr (s.disk (doublyIndirect d)) 128 q s₂ = .error .indexRange s₂ := rfl
  rw [extendInner, bind_ok hread, if_pos hmod, bind_ok halloc]
  simp only
  rw [bind_ok hwrite, hdiv, bind_error hset]

end

/-- The doubly-indirect block is allocated. -/
theorem doubly_true (h : Growing n files s₀ d₀ S₀ owner₀ s d (Needs 251) owner {p})
    (hzero : s.disk p = zeros) (hcan : CanAllocate s 1) :
    ∃ d' s' owner', extendDoubly d 0 p s = extendInner d' 0 p s' ∧
      Growing n files s₀ d₀ S₀ owner₀ s' d' (insert .doubly (Needs 251)) owner' {p} ∧
      s'.disk p = zeros ∧ ∀ k, CanAllocate s (k + 1) ↔ CanAllocate s' k := by
  obtain ⟨q, s₁, s₂, halloc, hwrite, hq, hgrow, -, hdisk, hcount⟩ := h.allocateZeroed hcan
  have hqp : p ≠ q := fun heq => hq heq.symm
  have hfree := (h.pending p rfl).2.2
  have hlink := hgrow.linkRoot (σ := .doubly) (.inl rfl) (by simp) rfl (fun _ hc => by cases hc)
  rw [Set.insert_sdiff_self_of_notMem hq] at hlink
  have hlt := hgrow.owned.lt_two_pow (hgrow.pending q (.inl rfl)).2.1
  have hzero₂ : s₂.disk p = zeros := by
    rw [hdisk p hqp fun j hj => by rw [hfree] at hj; cases hj]
    exact hzero
  refine ⟨_, s₂, _, ?_, hlink, hzero₂, hcount⟩
  have hwrite' : blockWrite (doublyIndirect (setDoublyIndirect d q)) zeros s₁ = .ok () s₂ := by
    rw [doublyIndirect, setDoublyIndirect, word_setWord_self hlt]
    exact hwrite
  rw [extendDoubly, if_pos rfl, bind_ok halloc]
  simp only
  rw [bind_ok hwrite']
  rfl

theorem doubly_false (h : Growing n files s₀ d₀ S₀ owner₀ s d S owner {p})
    (hfile : s₀.freeMapFile = true) (hcan : ¬ CanAllocate s 1) :
    ∃ s', extendDoubly d 0 p s = .ok (d, false) s' ∧
      Growing n files s₀ d₀ S₀ owner₀ s' d S owner ∅ := by
  obtain ⟨s₁, s', halloc, hrun, hgrow⟩ := h.allocate_fails hfile hcan
  refine ⟨s', ?_, hgrow⟩
  rw [extendDoubly, if_pos rfl, bind_ok halloc]
  exact hrun

theorem extendDoubly_true (h : Growing n files s₀ d₀ S₀ owner₀ s d (Needs i) owner {p})
    (hzero : s.disk p = zeros) (hi : i = 251 + 128 * o + k) (ho : o < 128) (hk : k < 128)
    (hcan : CanAllocate s (slotsAt i - 1)) :
    ∃ d' s' owner', extendDoubly d (i - 251) p s = .ok (d', true) s' ∧
      Growing n files s₀ d₀ S₀ owner₀ s' d' (Needs (i + 1)) owner' ∅ ∧
      ∀ m, CanAllocate s (m + (slotsAt i - 1)) ↔ CanAllocate s' m := by
  by_cases hfirst : i = 251
  · -- the doubly-indirect block comes first
    obtain rfl : o = 0 := by omega
    obtain rfl : k = 0 := by omega
    subst hfirst
    have hcan₁ : CanAllocate s 2 := hcan
    obtain ⟨d', s₁, owner₁, hrun, hgrow, hzero', hcount⟩ := h.doubly_true hzero (hcan₁.mono (by omega))
    obtain ⟨s', owner', hrun', hgrow', hcount'⟩ := hgrow.extendInner_true (i := 251) (o := 0) (k := 0)
      hzero' rfl (by decide) (by decide) (.inl rfl) (by simp) (by simp)
      (fun _ => (hcount 1).mp hcan₁)
    rw [← needs_succ_doubly] at hgrow'
    refine ⟨d', s', owner', hrun.trans hrun', hgrow', fun m => ?_⟩
    rw [← hcount' m, if_pos rfl, ← hcount]
    rfl
  · rw [slotsAt_inner hi hk hfirst] at hcan ⊢
    have hdoubly : Slot.doubly ∈ Needs i := by
      rw [doubly_mem_needs]
      omega
    have hinner : Slot.inner o ∈ Needs i ↔ k ≠ 0 := by
      rw [inner_mem_needs]
      omega
    obtain ⟨s', owner', hrun, hgrow, hcount⟩ := h.extendInner_true hzero hi ho hk hdoubly hinner
      (by simp) (fun hk0 => by rw [if_pos hk0] at hcan; exact hcan)
    rw [← needs_succ_inner hi hk hfirst] at hgrow
    refine ⟨d, s', owner', ?_, hgrow, fun m => ?_⟩
    · rw [extendDoubly, if_neg (by omega)]
      exact hrun
    · rw [← hcount m]
      split <;> rfl

/-! ## One iteration -/

theorem sub_direct_indirect (i : Nat) : i - DIRECT_BLOCKS - PTRS_PER_SECTOR = i - 251 := by
  simp only [DIRECT_BLOCKS, PTRS_PER_SECTOR]
  omega

/-- One iteration with enough free sectors. -/
theorem extendOne_true (h : Growing n files s₀ d₀ S₀ owner₀ s d (Needs i) owner ∅)
    (hi : i < capacity) (hcan : CanAllocate s (slotsAt i)) :
    ∃ d' s' owner', extendOne d i s = .ok (d', true) s' ∧
      Growing n files s₀ d₀ S₀ owner₀ s' d' (Needs (i + 1)) owner' ∅ ∧
      ∀ k, CanAllocate s (k + slotsAt i) ↔ CanAllocate s' k := by
  rw [capacity_eq] at hi
  obtain ⟨p, s₁, s₂, halloc, hwrite, -, hgrow, hzero, -, hcount⟩ :=
    h.allocateZeroed (hcan.mono (slotsAt_pos i))
  have hcount' : ∀ k, CanAllocate s (k + slotsAt i) ↔ CanAllocate s₂ (k + (slotsAt i - 1)) := by
    intro k
    rw [← hcount, show k + (slotsAt i - 1) + 1 = k + slotsAt i by have := slotsAt_pos i; omega]
  have hcan₂ : CanAllocate s₂ (slotsAt i - 1) := by
    have := (hcount' 0).mp (by rw [Nat.zero_add]; exact hcan)
    rw [Nat.zero_add] at this
    exact this
  rw [insert_empty_eq] at hgrow
  rw [extendOne, bind_ok halloc]
  simp only
  rw [bind_ok hwrite]
  obtain ⟨hlt, hparent, hpos⟩ | ⟨hle, hlt, -, -⟩ | ⟨o, k, hok, hk, -, -⟩ := Slot.data_cases i
  · -- a direct slot
    have hlink := hgrow.linkRoot (σ := .data i) rfl (by simp) hparent (fun _ _ => hzero)
    rw [Set.sdiff_self, hpos, ← needs_succ_direct hlt] at hlink
    refine ⟨_, s₂, _, ?_, hlink, ?_⟩
    · have hset : setDirect d i p s₂ = .ok (setWord d (8 + 4 * i) p) s₂ := by
        rw [setDirect, if_pos hlt]
        rfl
      rw [if_pos hlt, bind_ok hset]
      rfl
    · intro k
      rw [hcount', slotsAt_direct hlt]
      rfl
  · rw [if_neg (Nat.not_lt.mpr hle), if_pos (show i < DIRECT_BLOCKS + PTRS_PER_SECTOR from hlt)]
    obtain ⟨d', s', owner', hrun, hgrow', hcount''⟩ :=
      hgrow.extendIndirect_true hzero hle hlt hcan₂
    exact ⟨d', s', owner', hrun, hgrow', fun k => (hcount' k).trans (hcount'' k)⟩
  · have hdirect : ¬ i < DIRECT_BLOCKS := by
      simp only [DIRECT_BLOCKS]
      omega
    have hindirect : ¬ i < DIRECT_BLOCKS + PTRS_PER_SECTOR := by
      simp only [DIRECT_BLOCKS, PTRS_PER_SECTOR]
      omega
    rw [if_neg hdirect, if_neg hindirect, sub_direct_indirect]
    obtain ⟨d', s', owner', hrun, hgrow', hcount''⟩ :=
      hgrow.extendDoubly_true hzero hok (by omega) hk hcan₂
    exact ⟨d', s', owner', hrun, hgrow', fun k => (hcount' k).trans (hcount'' k)⟩

/-- One iteration without enough free sectors: the inode keeps its slots, except
    that a doubly-indirect block stays allocated when the second-level block is the
    one that is missing. -/
theorem extendOne_false (h : Growing n files s₀ d₀ S₀ owner₀ s d (Needs i) owner ∅)
    (hfile : s₀.freeMapFile = true) (hi : i ≤ capacity) (hcan : ¬ CanAllocate s (slotsAt i)) :
    ∃ d' s' owner', extendOne d i s = .ok (d', false) s' ∧
      Growing n files s₀ d₀ S₀ owner₀ s' d'
        (if i = 251 ∧ CanAllocate s 2 then insert .doubly (Needs i) else Needs i) owner' ∅ := by
  rw [capacity_eq] at hi
  by_cases hone : CanAllocate s 1
  · obtain ⟨p, s₁, s₂, halloc, hwrite, -, hgrow, hzero, -, hcount⟩ := h.allocateZeroed hone
    rw [insert_empty_eq] at hgrow
    have hcan₂ : ¬ CanAllocate s₂ (slotsAt i - 1) := by
      rw [← hcount, Nat.sub_add_cancel (slotsAt_pos i)]
      exact hcan
    rw [extendOne, bind_ok halloc]
    simp only
    rw [bind_ok hwrite]
    obtain ⟨hlt, -, -⟩ | ⟨hle, hlt, -, -⟩ | ⟨o, k, hok, hk, -, -⟩ := Slot.data_cases i
    · -- a direct slot takes one sector
      rw [slotsAt_direct hlt] at hcan
      exact absurd hone hcan
    · rw [if_neg (Nat.not_lt.mpr hle), if_pos (show i < DIRECT_BLOCKS + PTRS_PER_SECTOR from hlt),
        if_neg (by omega)]
      obtain ⟨s', hrun, hgrow'⟩ := hgrow.extendIndirect_false hfile hle hlt hcan₂
      exact ⟨d, s', owner, hrun, hgrow'⟩
    · have hdirect : ¬ i < DIRECT_BLOCKS := by
        simp only [DIRECT_BLOCKS]
        omega
      have hindirect : ¬ i < DIRECT_BLOCKS + PTRS_PER_SECTOR := by
        simp only [DIRECT_BLOCKS, PTRS_PER_SECTOR]
        omega
      rw [if_neg hdirect, if_neg hindirect, sub_direct_indirect]
      by_cases hfirst : i = 251
      · subst hfirst
        rw [← hcount] at hcan₂
        by_cases htwo : CanAllocate s 2
        · rw [if_pos ⟨rfl, htwo⟩]
          obtain ⟨d', s₃, owner', hrun, hgrow', -, hcount'⟩ :=
            hgrow.doubly_true hzero ((hcount 1).mp htwo)
          obtain ⟨s', hrun', hgrow''⟩ := hgrow'.extendInner_false (i := 251) (o := 0) hfile rfl
            (.inl rfl) (by
            rw [← hcount', ← hcount]
            exact hcan)
          exact ⟨d', s', owner', hrun.trans hrun', hgrow''⟩
        · rw [if_neg fun hc => htwo hc.2]
          obtain ⟨s', hrun, hgrow'⟩ := hgrow.doubly_false hfile (by rw [← hcount]; exact htwo)
          exact ⟨d, s', owner, hrun, hgrow'⟩
      · rw [if_neg fun hc => hfirst hc.1]
        rw [slotsAt_inner hok hk hfirst] at hcan₂
        by_cases hk0 : k = 0
        · rw [if_pos hk0] at hcan₂
          subst hk0
          have hdoubly : Slot.doubly ∈ Needs i := by
            rw [doubly_mem_needs]
            omega
          obtain ⟨s', hrun, hgrow'⟩ := hgrow.extendInner_false hfile hok hdoubly hcan₂
          refine ⟨d, s', owner, ?_, hgrow'⟩
          rw [extendDoubly, if_neg (by omega)]
          exact hrun
        · rw [if_neg hk0] at hcan₂
          exact absurd (canAllocate_zero s₂) hcan₂
  · obtain ⟨s', halloc, hgrow⟩ := h.allocate_none hone
    refine ⟨d, s', owner, ?_, ?_⟩
    · rw [extendOne, bind_ok halloc]
      rfl
    · rw [if_neg fun hc => hone (hc.2.mono (by omega))]
      exact hgrow

/-- One iteration behind the last sector that an inode can have. -/
theorem extendOne_indexRange (h : Growing n files s₀ d₀ S₀ owner₀ s d (Needs capacity) owner ∅)
    (hcan : CanAllocate s (slotsAt capacity)) :
    ∃ s', extendOne d capacity s = .error .indexRange s' := by
  have htwo : CanAllocate s 2 := hcan
  obtain ⟨p, s₁, s₂, halloc, hwrite, -, hgrow, hzero, -, hcount⟩ :=
    h.allocateZeroed (htwo.mono (by omega))
  rw [insert_empty_eq] at hgrow
  have hdoubly : Slot.doubly ∈ Needs capacity := by
    rw [doubly_mem_needs, capacity_eq]
    omega
  obtain ⟨s', hrun⟩ := hgrow.extendInner_indexRange (i := capacity) rfl hdoubly ((hcount 1).mp htwo)
  refine ⟨s', ?_⟩
  rw [extendOne, bind_ok halloc]
  simp only
  rw [bind_ok hwrite, if_neg (by decide), if_neg (by decide), sub_direct_indirect, extendDoubly,
    if_neg (by decide)]
  exact hrun

/-! ## The loop -/

/-- The loop with enough free sectors. -/
theorem extendLoop_true (m : Nat) : ∀ (i : Nat) (s : State) (d : Memory) (owner : Owner),
    Growing n files s₀ d₀ S₀ owner₀ s d (Needs i) owner ∅ → i + m ≤ capacity →
    CanAllocate s (slotsFrom i m) →
    ∃ d' s' owner', extendLoop m i d s = .ok (d', true) s' ∧
      Growing n files s₀ d₀ S₀ owner₀ s' d' (Needs (i + m)) owner' ∅ ∧
      ∀ k, CanAllocate s (k + slotsFrom i m) ↔ CanAllocate s' k := by
  induction m with
  | zero =>
    intro i s d owner h _ _
    exact ⟨d, s, owner, rfl, h, fun _ => Iff.rfl⟩
  | succ m ih =>
    intro i s d owner h hcap hcan
    simp only [slotsFrom] at hcan ⊢
    obtain ⟨d₁, s₁, owner₁, hrun, hgrow, hcount⟩ :=
      h.extendOne_true (by omega) (hcan.mono (Nat.le_add_right _ _))
    rw [Nat.add_comm] at hcan
    obtain ⟨d', s', owner', hrun', hgrow', hcount'⟩ :=
      ih (i + 1) s₁ d₁ owner₁ hgrow (by omega) ((hcount _).mp hcan)
    refine ⟨d', s', owner', ?_, ?_, fun k => ?_⟩
    · rw [extendLoop, bind_ok hrun]
      exact hrun'
    · rw [show i + (m + 1) = i + 1 + m by omega]
      exact hgrow'
    · rw [← hcount', ← hcount]
      rw [show k + (slotsAt i + slotsFrom (i + 1) m) = k + slotsFrom (i + 1) m + slotsAt i by omega]

/-- The loop without enough free sectors.  The inode keeps slots that it got in
    the iterations before. -/
theorem extendLoop_false (m : Nat) : ∀ (i : Nat) (s : State) (d : Memory) (owner : Owner),
    Growing n files s₀ d₀ S₀ owner₀ s d (Needs i) owner ∅ → s₀.freeMapFile = true →
    i ≤ capacity → ¬ CanAllocate s (slotsFrom i (iterations i m)) →
    ∃ d' s' S' owner', extendLoop m i d s = .ok (d', false) s' ∧
      Growing n files s₀ d₀ S₀ owner₀ s' d' S' owner' ∅ ∧ Needs i ⊆ S' ∧
      (S' = Needs i ↔ ¬ CanAllocate s (slotsAt i) ∧ ¬ (i = 251 ∧ CanAllocate s 2)) := by
  induction m with
  | zero =>
    intro i s d owner _ _ _ hcan
    rw [iterations, Nat.zero_min] at hcan
    exact absurd (canAllocate_zero s) hcan
  | succ m ih =>
    intro i s d owner h hfile hcap hcan
    rw [slotsFrom_iterations_succ hcap] at hcan
    by_cases hone : CanAllocate s (slotsAt i)
    · have hlt : i < capacity := by
        by_contra hge
        obtain rfl : i = capacity := by omega
        rw [show iterations (capacity + 1) m = 0 by simp [iterations], slotsFrom, Nat.zero_add] at hcan
        exact hcan hone
      obtain ⟨d₁, s₁, owner₁, hrun, hgrow, hcount⟩ := h.extendOne_true hlt hone
      rw [hcount] at hcan
      obtain ⟨d', s', S', owner', hrun', hgrow', hsub, -⟩ :=
        ih (i + 1) s₁ d₁ owner₁ hgrow hfile hlt hcan
      refine ⟨d', s', S', owner', ?_, hgrow', fun σ hσ => hsub (needs_mono (by omega) hσ), ?_⟩
      · rw [extendLoop, bind_ok hrun]
        exact hrun'
      · -- the sector of this iteration stays
        refine iff_of_false (fun heq => ?_) fun hc => hc.1 hone
        have hmem : Slot.data i ∈ S' := hsub (by simp)
        rw [heq, data_mem_needs] at hmem
        omega
    · obtain ⟨d', s', owner', hrun, hgrow⟩ := h.extendOne_false hfile hcap hone
      refine ⟨d', s', _, owner', ?_, hgrow, ?_, ?_⟩
      · rw [extendLoop, bind_ok hrun]
        rfl
      · split
        · exact Set.subset_insert _ _
        · exact fun _ h => h
      · by_cases hleak : i = 251 ∧ CanAllocate s 2
        · rw [if_pos hleak]
          refine iff_of_false (fun heq => ?_) fun hc => hc.2 hleak
          have hmem : Slot.doubly ∈ Needs i := by
            rw [← heq]
            exact .inl rfl
          rw [doubly_mem_needs] at hmem
          omega
        · rw [if_neg hleak]
          exact iff_of_true rfl ⟨hone, hleak⟩

/-- The loop behind the last sector that an inode can have. -/
theorem extendLoop_indexRange (m : Nat) : ∀ (i : Nat) (s : State) (d : Memory) (owner : Owner),
    Growing n files s₀ d₀ S₀ owner₀ s d (Needs i) owner ∅ → i ≤ capacity → capacity < i + m →
    CanAllocate s (slotsFrom i (iterations i m)) →
    ∃ s', extendLoop m i d s = .error .indexRange s' := by
  induction m with
  | zero =>
    intro i s d owner _ hle hlt _
    omega
  | succ m ih =>
    intro i s d owner h hle hlt hcan
    rw [slotsFrom_iterations_succ hle] at hcan
    have hone := hcan.mono (Nat.le_add_left _ _)
    by_cases hlast : i = capacity
    · subst hlast
      obtain ⟨s', hrun⟩ := h.extendOne_indexRange hone
      refine ⟨s', ?_⟩
      rw [extendLoop, bind_error hrun]
    · obtain ⟨d₁, s₁, owner₁, hrun, hgrow, hcount⟩ := h.extendOne_true (by omega) hone
      rw [hcount] at hcan
      obtain ⟨s', hrun'⟩ := ih (i + 1) s₁ d₁ owner₁ hgrow (by omega) (by omega) hcan
      refine ⟨s', ?_⟩
      rw [extendLoop, bind_ok hrun]
      exact hrun'

/-- The free map is as before exactly if the inode has no new slot. -/
theorem freeMap_eq_iff (h : Growing n files s₀ d₀ S₀ owner₀ s d S owner ∅) :
    s.freeMap = s₀.freeMap ↔ S = S₀ := by
  constructor
  · intro heq
    refine Set.Subset.antisymm (fun σ hσ => ?_) h.sub
    by_contra hσ₀
    have hclear := h.fresh σ hσ hσ₀
    rw [← heq, h.owned.used _ _ (h.maps σ hσ)] at hclear
    cases hclear
  · rintro rfl
    apply List.ext_getElem?
    intro p
    exact h.others p (fun hp => hp) fun σ hσ hσ' => absurd hσ hσ'

end Growing

/-! ## `inode_extend` -/

section

variable {s : State} {files : Files} {owner : Owner} {n : Sector} {d : Memory}

/-- The sectors that `inode_extend` has to allocate, as far as it gets. -/
def slotsNeeded (d : Memory) (newLength : Int) : Nat :=
  slotsFrom (sectors d)
    (iterations (sectors d)
      (bytesToSectors newLength - sectors d))

theorem inodeExtend_eq (d : Memory) (newLength : Int) :
    inodeExtend d newLength =
      (if bytesToSectors newLength ≤ sectors d then pure (setLength d newLength, true)
      else do
        let (d, ok) ← extendLoop (bytesToSectors newLength - sectors d) (sectors d) d
        if ok then pure (setLength d newLength, true) else pure (d, false)) := rfl

theorem inodeExtend_le {newLength : Int} (hle : bytesToSectors newLength ≤ sectors d) :
    inodeExtend d newLength s = .ok (setLength d newLength, true) s := by
  rw [inodeExtend_eq, if_pos hle]
  rfl

section

variable (h : Owned s files owner) (hn : files n = some (d, Needs (sectors d)))

include h hn

/-- A call that grows the inode inside its capacity, with enough free sectors. -/
theorem inodeExtend_true (newLength : Int) (hle : sectors d ≤ bytesToSectors newLength)
    (hcap : bytesToSectors newLength ≤ capacity) (hcan : CanAllocate s (slotsNeeded d newLength)) :
    ∃ d' s' owner', inodeExtend d newLength s = .ok (setLength d' newLength, true) s' ∧
      Growing n files s d (Needs (sectors d)) owner s' d'
        (Needs (bytesToSectors newLength)) owner' ∅ ∧
      ∀ k, CanAllocate s (k + slotsNeeded d newLength) ↔ CanAllocate s' k := by
  by_cases hsame : bytesToSectors newLength ≤ sectors d
  · have heq := Nat.le_antisymm hle hsame
    refine ⟨d, s, owner, inodeExtend_le hsame, ?_, ?_⟩
    · rw [← heq]
      exact .start h hn
    · intro k
      rw [slotsNeeded, ← heq, Nat.sub_self, iterations, Nat.zero_min]
      rfl
  · have hiter : iterations (sectors d)
        (bytesToSectors newLength - sectors d) =
        bytesToSectors newLength - sectors d := by
      simp only [iterations]
      omega
    rw [slotsNeeded, hiter] at hcan ⊢
    obtain ⟨d', s', owner', hrun, hgrow, hcount⟩ := Growing.extendLoop_true _ _ s d owner
      (.start h hn) (by omega) hcan
    rw [Nat.add_sub_cancel' hle] at hgrow
    refine ⟨d', s', owner', ?_, hgrow, hcount⟩
    rw [inodeExtend_eq, if_neg hsame, bind_ok hrun]
    rfl

/-- A call that fails. -/
theorem inodeExtend_false (hfile : s.freeMapFile = true)
    (hcap : sectors d ≤ capacity) (newLength : Int)
    (hcan : ¬ CanAllocate s (slotsNeeded d newLength)) :
    ∃ d' s' S' owner', inodeExtend d newLength s = .ok (d', false) s' ∧
      Growing n files s d (Needs (sectors d)) owner s' d' S' owner' ∅ ∧
      (S' = Needs (sectors d) ↔
        ¬ CanAllocate s (slotsAt (sectors d)) ∧
          ¬ (sectors d = 251 ∧ CanAllocate s 2)) := by
  have hgrows : ¬ bytesToSectors newLength ≤ sectors d := by
    intro hle
    rw [slotsNeeded, Nat.sub_eq_zero_of_le hle, iterations, Nat.zero_min] at hcan
    exact hcan (canAllocate_zero s)
  obtain ⟨d', s', S', owner', hrun, hgrow, -, hiff⟩ := Growing.extendLoop_false _ _ s d owner
    (.start h hn) hfile hcap hcan
  refine ⟨d', s', S', owner', ?_, hgrow, hiff⟩
  rw [inodeExtend_eq, if_neg hgrows, bind_ok hrun]
  rfl

/-- A call that runs behind the last sector that an inode can have. -/
theorem inodeExtend_indexRange (hcap : sectors d ≤ capacity) (newLength : Int)
    (hbeyond : capacity < bytesToSectors newLength)
    (hcan : CanAllocate s (slotsNeeded d newLength)) :
    ∃ s', inodeExtend d newLength s = .error .indexRange s' := by
  obtain ⟨s', hrun⟩ := Growing.extendLoop_indexRange _ _ s d owner (.start h hn) hcap (by omega) hcan
  refine ⟨s', ?_⟩
  rw [inodeExtend_eq, if_neg (by omega), bind_error hrun]

end

/-- An inode on the file system has a number, the free map's inode the number 0. -/
theorem Mounted.exists_number {i : Inode} (hm : Mounted s i)
    (hr : Resident s i d ∨ d = i.data) : 0 ≤ length d ∧ sectors d ≤ capacity ∧
      ∃ n files owner, Owned s files owner ∧ files n = some (d, Needs (sectors d)) := by
  rcases hr with hr | rfl
  · obtain ⟨files, owner, h, hn⟩ := hm.exists_owned hr
    exact ⟨hr.nonneg, hr.cap, 1, files, owner, h, hn⟩
  · have hlong := hm.long
    exact ⟨by omega, hm.cap, FREE_MAP_SECTOR, _, _, hm.owned, if_pos rfl⟩

/-- Failed growth is atomic exactly if nothing is allocated before the failure:
    there is room for everything, or for nothing that would stay allocated. -/
theorem failed_extend_keeps_freeMap_iff {i : Inode} (hm : Mounted s i)
    (hr : Resident s i d ∨ d = i.data) (newLength : Int) :
    (∀ d' s', inodeExtend d newLength s = .ok (d', false) s' → s'.freeMap = s.freeMap) ↔
      CanAllocate s (slotsNeeded d newLength) ∨
        (¬ CanAllocate s (slotsAt (sectors d)) ∧ ¬ (sectors d = 251 ∧ CanAllocate s 2)) := by
  obtain ⟨-, hcap, n, files, owner, h, hn⟩ := hm.exists_number hr
  by_cases hcan : CanAllocate s (slotsNeeded d newLength)
  · refine iff_of_true (fun d' s' hrun => ?_) (.inl hcan)
    by_cases hle : bytesToSectors newLength ≤ sectors d
    · rw [inodeExtend_le hle] at hrun
      cases hrun
    by_cases hin : bytesToSectors newLength ≤ capacity
    · obtain ⟨_, _, _, hok, -⟩ := inodeExtend_true h hn newLength (by omega) hin hcan
      rw [hok] at hrun
      cases hrun
    · obtain ⟨_, herr⟩ := inodeExtend_indexRange h hn hcap newLength (by omega) hcan
      rw [herr] at hrun
      cases hrun
  · obtain ⟨d', s', S', owner', hrun, hgrow, hiff⟩ :=
      inodeExtend_false h hn hm.file hcap newLength hcan
    rw [or_iff_right hcan, ← hiff, ← hgrow.freeMap_eq_iff]
    constructor
    · intro hall
      exact hall d' s' hrun
    · intro heq d'' s'' hrun'
      rw [hrun] at hrun'
      cases hrun'
      exact heq

end

/-! ### Devices with a free map of one sector -/

/-- The inode of the free map. -/
def smallFreeMap : Inode := ⟨0, 1, false, 0, setWord (setLength zeros 512) 8 2⟩

theorem length_smallFreeMap : length smallFreeMap.data = 512 := by decide

theorem sectors_smallFreeMap : sectors smallFreeMap.data = 1 := by decide

theorem length_zeros : length zeros = 0 := by decide

/-- A device with `free` free sectors: the free map has its sector of data in
    sector 2, the root directory is empty. -/
def small (free : Nat) : State :=
  ⟨3 + free, fun _ => zeros, [true, true, true] ++ List.replicate free false, true,
    [smallFreeMap], []⟩

theorem mem_needs_one {σ : Slot} (hσ : σ ∈ Needs 1) : σ = .data 0 := by
  cases σ with
  | data i =>
    rw [data_mem_needs] at hσ
    rw [show i = 0 by omega]
  | indirect => simp at hσ
  | doubly => simp at hσ
  | inner o =>
    rw [inner_mem_needs] at hσ
    omega

theorem slotSector_smallFreeMap (disk : Sector → Memory) :
    slotSector disk smallFreeMap.data (.data 0) = 2 := by
  have hword : word smallFreeMap.data 8 = 2 := word_setWord_self (by decide)
  rw [slotSector, if_pos (by decide), hword]

section

variable {free : Nat}

theorem small_len (free : Nat) : (small free).freeMap.length = (small free).size := by
  simp [small]
  omega

theorem small_size_le (hfree : free ≤ 4000) : (small free).size ≤ 2 ^ 32 := by
  simp only [small]
  omega

theorem small_long (hfree : free ≤ 4000) :
    (byteCnt (small free).freeMap.length : Int) ≤ length smallFreeMap.data := by
  rw [length_smallFreeMap, small_len]
  simp only [small, byteCnt]
  omega

theorem small_mounted (hfree : free ≤ 4000) : Mounted (small free) smallFreeMap where
  file := rfl
  len := small_len free
  small := small_size_le hfree
  inode := rfl
  writable := rfl
  long := small_long hfree
  cap := by
    rw [sectors_smallFreeMap]
    decide
  used := by
    intro σ hσ
    rw [sectors_smallFreeMap] at hσ
    rw [mem_needs_one hσ, slotSector_smallFreeMap]
    rfl
  inj := by
    intro σ hσ τ hτ _
    rw [sectors_smallFreeMap] at hσ hτ
    rw [mem_needs_one hσ, mem_needs_one hτ]

theorem canAllocate_small {n : Nat} : CanAllocate (small free) n ↔ n ≤ free := by
  simp [CanAllocate, small]

end

/-- Nothing is free: the growth by one sector fails, and the free map is as it was. -/
theorem failed_extend_keeps_freeMap_iff_full :
    ∃ d' s', inodeExtend zeros 512 (small 0) = .ok (d', false) s' ∧
      s'.freeMap = (small 0).freeMap := by
  have hm : Mounted (small 0) smallFreeMap := small_mounted (by decide)
  have hr : Resident (small 0) smallFreeMap zeros := resident_of_length_zero _ length_zeros
  obtain ⟨files, owner, h, hn⟩ := hm.exists_owned hr
  obtain ⟨d', s', -, -, hrun, -⟩ := inodeExtend_false h hn rfl (by decide) 512 (by decide)
  exact ⟨d', s', hrun, (failed_extend_keeps_freeMap_iff hm (.inl hr) 512).mpr
    (.inr ⟨by decide, by decide⟩) d' s' hrun⟩

/-- Two sectors are asked for and one is free: it stays allocated. -/
theorem failed_extend_leaks :
    ∃ d' s', inodeExtend zeros 1024 (small 1) = .ok (d', false) s' ∧
      s'.freeMap ≠ (small 1).freeMap := by
  have hm : Mounted (small 1) smallFreeMap := small_mounted (by decide)
  obtain ⟨files, owner, h, hn⟩ := hm.exists_owned (resident_of_length_zero _ length_zeros)
  obtain ⟨d', s', S', owner', hrun, hgrow, hiff⟩ :=
    inodeExtend_false h hn rfl (by decide) 1024 (by decide)
  refine ⟨d', s', hrun, fun heq => ?_⟩
  rw [hgrow.freeMap_eq_iff] at heq
  exact (hiff.mp heq).1 (by decide)

end Pintos.Fs
