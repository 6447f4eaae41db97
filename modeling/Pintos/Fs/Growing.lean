/-
  Pintos.Fs.Growing

  Growing an inode, one pointer at a time.

  `Growing` relates the state before a call of `inode_extend` to every state on
  the way: the slots the inode owned keep their sectors, the sectors of the new
  slots were free before, and so were the sectors that are allocated but not yet
  pointed to.  Every primitive that `inode_extend` is made of keeps the relation.
-/

import Pintos.Fs.Mounted

namespace Pintos.Fs

open Pintos.Base Pintos.Lib Function

/-! ## Changes of the inodes -/

section Owned

variable {s s' : State} {files : Files} {owner : Owner} {n p : Sector} {d : Memory} {S : Set Slot}
  {σ ρ : Slot}

/-- A sector is allocated. -/
theorem Owned.allocated (h : Owned s files owner) (hstep : FreeMapStep owner s s')
    (hmap : s'.freeMap = s.freeMap.set p true) : Owned s' files owner := by
  refine h.freeMapStep hstep (by rw [hmap, List.length_set]) fun q r hq => ?_
  have hused := h.used q r hq
  have hlt := (List.getElem?_eq_some_iff.mp hused).1
  rw [hmap, List.getElem?_set]
  split
  · subst_vars
    rw [if_pos hlt]
  · exact hused

/-- A sector that belongs to no inode is written. -/
theorem Owned.setDisk_free (h : Owned s files owner) (hp : owner p = none) (b : Memory) :
    Owned (s.setDisk (update s.disk p b)) files owner where
  len := h.len
  small := h.small
  used := h.used
  closed := h.closed
  maps m d S hm := by
    refine (h.maps m d S hm).congr (h.closed m d S hm) fun q τ hq _ => ?_
    refine update_of_ne ?_ _ _
    rintro rfl
    rw [hp] at hq
    cases hq
  file := h.file_congr rfl rfl rfl fun _ => rfl

theorem Owned.lt_two_pow (h : Owned s files owner) {b : Bool} (hp : s.freeMap[p]? = some b) :
    p < 2 ^ 32 := by
  have hlt := (List.getElem?_eq_some_iff.mp hp).1
  rw [h.len] at hlt
  exact Nat.lt_of_lt_of_le hlt h.small

theorem ne_of_owner_none {r : Sector × Option Slot} {q : Sector} (hp : owner p = none)
    (hq : owner q = some r) : q ≠ p := by
  rintro rfl
  rw [hp] at hq
  cases hq

/-- An inode gets a new pointer: what has to be shown. -/
theorem Owned.link (h : Owned s files owner) (hn : files n = some (d, S))
    (hparent : ∀ τ, σ.parent = some τ → τ ∈ S) (hp : owner p = none)
    (hused : s.freeMap[p]? = some true) {disk' : Sector → Memory} {d' : Memory}
    (hmaps : Maps disk' d' (insert σ S) (update owner p (some (n, some σ))) n)
    (hroots : ∀ τ ∈ S, Slot.parent τ = none → word d' τ.pos = word d τ.pos)
    (hdisk : ∀ q τ m, m ≠ n → owner q = some (m, some τ) → disk' q = s.disk q) :
    Owned (s.setDisk disk') (update files n (some (d', insert σ S)))
      (update owner p (some (n, some σ))) := by
  refine h.put _ (fun q r hq => ?_) ((h.closed _ _ _ hn).insert hparent) hmaps (fun m e T hne hm => ?_)
    fun _ e T he => ?_
  · by_cases hqp : q = p
    · rw [hqp]
      exact hused
    · rw [update_of_ne hqp] at hq
      exact h.used q r hq
  · have hkeep := (h.maps m e T hm).congr (h.closed m e T hm) fun q τ hq _ => hdisk q τ m hne hq
    refine hkeep.owner_mono fun q r hq => ?_
    rw [update_of_ne (ne_of_owner_none hp hq)]
    exact hq
  · cases hn.symm.trans he
    exact ⟨fun _ => .inr, fun τ hτ hroot => (hroots τ hτ hroot).symm⟩

end Owned

/-! ## The relation -/

/-- Index blocks of the inode `n`. -/
def IndexOf (n : Sector) : Sector × Option Slot → Prop
  | (_, none) => False
  | (_, some (.data _)) => False
  | (m, some _) => m = n

/-- What growing the inode `n` does not write: sectors of inodes, index blocks of
    other inodes, and data outside the free map's file. -/
def Kept (n : Sector) : Sector × Option Slot → Prop
  | (_, none) => True
  | (m, some (.data _)) => m ≠ FREE_MAP_SECTOR
  | (m, some _) => m ≠ n

theorem Kept.not_index {n : Sector} {r : Sector × Option Slot} (h : Kept n r) : ¬ IndexOf n r := by
  obtain ⟨m, _ | σ⟩ := r
  · exact fun hc => hc
  · cases σ with
    | data i => exact fun hc => hc
    | indirect => exact h
    | doubly => exact h
    | inner o => exact h

theorem not_indexOf_of_ne {n m : Sector} (h : m ≠ n) (σ : Option Slot) : ¬ IndexOf n (m, σ) := by
  rcases σ with _ | σ
  · exact fun hc => hc
  · cases σ with
    | data i => exact fun hc => hc
    | indirect => exact h
    | doubly => exact h
    | inner o => exact h

/-- The free map's file still holds the free map after writes elsewhere. -/
theorem Synced.congr {s : State} {files : Files} {owner : Owner} (h : Owned s files owner)
    (hsync : Synced s) (hfile : s.freeMapFile = true) {disk' : Sector → Memory}
    (hdisk : ∀ p σ, owner p = some (FREE_MAP_SECTOR, some σ) → disk' p = s.disk p) :
    Synced (s.setDisk disk') := by
  obtain ⟨i, cnt, d, S, hf⟩ := h.file hfile
  have hm : Maps s.disk i.data (Needs cnt) owner FREE_MAP_SECTOR := hf.maps h
  intro i' hi' k hk
  cases hf.inode.symm.trans hi'
  have hlong := hf.long
  have hshort := hf.short
  simp only [State.setDisk_freeMap, State.setDisk_disk] at hk ⊢
  have hneeds : Slot.data (k / BLOCK_SECTOR_SIZE) ∈ Needs cnt := by
    rw [data_mem_needs]
    simp only [BLOCK_SECTOR_SIZE] at hshort ⊢
    omega
  rw [← hsync i hf.inode k hk, byteOf,
    hm.slotSector_congr (closed_needs cnt) (fun p σ hp _ => hdisk p σ hp) _ hneeds,
    hdisk _ _ (hm _ hneeds), byteOf]

/-- The inode `n` grew from `d₀`, with the slots `S₀`, to `d`, with the slots `S`;
    the sectors in `X` are allocated for it but not in a slot yet. -/
structure Growing (n : Sector) (files : Files) (s₀ : State) (d₀ : Memory) (S₀ : Set Slot)
    (owner₀ : Owner) (s : State) (d : Memory) (S : Set Slot) (owner : Owner) (X : Set Sector) :
    Prop where
  owned : Owned s (update files n (some (d, S))) owner
  size : s.size = s₀.size
  freeMapFile : s.freeMapFile = s₀.freeMapFile
  openInodes : s.openInodes = s₀.openInodes
  mono : ∀ p r, owner₀ p = some r → owner p = some r
  kept : ∀ p r, owner₀ p = some r → Kept n r → s.disk p = s₀.disk p
  sub : S₀ ⊆ S
  keeps : ∀ σ ∈ S₀, slotSector s.disk d σ = slotSector s₀.disk d₀ σ
  fresh : ∀ σ ∈ S, σ ∉ S₀ → s₀.freeMap[slotSector s.disk d σ]? = some false
  pending : ∀ p ∈ X, s₀.freeMap[p]? = some false ∧ s.freeMap[p]? = some true ∧ owner p = none
  others : ∀ p, p ∉ X → (∀ σ ∈ S, σ ∉ S₀ → slotSector s.disk d σ ≠ p) →
    s.freeMap[p]? = s₀.freeMap[p]?
  fields : ∀ x, x < 8 ∨ 508 ≤ x → d x = d₀ x
  same : S = S₀ → d = d₀ ∧ ∀ p r, owner₀ p = some r → IndexOf n r → s.disk p = s₀.disk p
  zero : n ≠ FREE_MAP_SECTOR → ∀ i, Slot.data i ∈ S → Slot.data i ∉ S₀ →
    s.disk (slotSector s.disk d (.data i)) = zeros
  mallocs : s.mallocs <:+ s₀.mallocs
  synced : n ≠ FREE_MAP_SECTOR → s₀.freeMapFile = true → s₀.MallocsSucceed → Synced s₀ → Synced s

namespace Growing

variable {n : Sector} {files : Files} {s₀ : State} {d₀ : Memory} {S₀ : Set Slot} {owner₀ : Owner}
  {s s' : State} {d : Memory} {S : Set Slot} {owner : Owner} {X : Set Sector} {p : Sector}
  {σ ρ : Slot}

theorem start (h : Owned s₀ files owner₀) (hn : files n = some (d₀, S₀)) :
    Growing n files s₀ d₀ S₀ owner₀ s₀ d₀ S₀ owner₀ ∅ where
  owned := by rw [← hn, update_eq_self]; exact h
  size := rfl
  freeMapFile := rfl
  openInodes := rfl
  mono _ _ h := h
  kept _ _ _ _ := rfl
  sub _ h := h
  keeps _ _ := rfl
  fresh _ h h' := absurd h h'
  pending _ h := h.elim
  others _ _ _ := rfl
  fields _ _ := rfl
  same _ := ⟨rfl, fun _ _ _ _ => rfl⟩
  zero _ _ h h' := absurd h h'
  mallocs := List.suffix_rfl
  synced _ _ _ h := h

theorem live (_ : Growing n files s₀ d₀ S₀ owner₀ s d S owner X) :
    update files n (some (d, S)) n = some (d, S) := update_self _ _ _

section

variable (h : Growing n files s₀ d₀ S₀ owner₀ s d S owner X)

include h

theorem maps : Maps s.disk d S owner n :=
  h.owned.maps _ _ _ h.live

theorem closed : Closed S :=
  h.owned.closed _ _ _ h.live

/-- The sector of a slot is not a pending one. -/
theorem slot_ne_of_none (hσ : σ ∈ S)
    (hp : owner p = none) : slotSector s.disk d σ ≠ p := ne_of_owner_none hp (h.maps σ hσ)

/-- A change of the free map moves no slot. -/
theorem slotSector_step (hstep : FreeMapStep owner s s') :
    ∀ σ ∈ S, slotSector s'.disk d σ = slotSector s.disk d σ :=
  h.maps.slotSector_congr h.closed fun _ _ hp => Maps.index_of_dataOnly hstep.disk hp

/-! ### Changes of the free map -/

/-- The free map changes: what has to be shown of its bits. -/
theorem freeMapStep {X' : Set Sector} (hstep : FreeMapStep owner s s')
    (howned : Owned s' (update files n (some (d, S))) owner)
    (hpending : ∀ p ∈ X', s₀.freeMap[p]? = some false ∧ s'.freeMap[p]? = some true ∧ owner p = none)
    (hothers : ∀ p, p ∉ X' → (∀ σ ∈ S, σ ∉ S₀ → slotSector s.disk d σ ≠ p) →
      s'.freeMap[p]? = s₀.freeMap[p]?)
    (hsynced : s.freeMapFile = true → s.MallocsSucceed → Synced s → Synced s') : Growing n files s₀ d₀ S₀ owner₀ s' d S owner X' := by
  have hslots := h.slotSector_step hstep
  exact {
    owned := howned
    size := hstep.size.trans h.size
    freeMapFile := hstep.freeMapFile.trans h.freeMapFile
    openInodes := hstep.openInodes.trans h.openInodes
    mono := h.mono
    kept := by
      intro q r hq hr
      rw [← h.kept q r hq hr]
      apply hstep.disk
      intro j hj
      cases (h.mono q r hq).symm.trans hj
      exact hr rfl
    sub := h.sub
    keeps := fun σ hσ => (hslots σ (h.sub hσ)).trans (h.keeps σ hσ)
    fresh := fun σ hσ hσ₀ => by rw [hslots σ hσ]; exact h.fresh σ hσ hσ₀
    pending := hpending
    others := by
      intro q hq hslot
      refine hothers q hq fun σ hσ hσ₀ => ?_
      rw [← hslots σ hσ]
      exact hslot σ hσ hσ₀
    fields := h.fields
    same := fun heq => ⟨(h.same heq).1, fun q r hq hr => by
      rw [← (h.same heq).2 q r hq hr]
      apply hstep.disk
      intro j hj
      cases (h.mono q r hq).symm.trans hj
      exact hr⟩
    zero := by
      intro hn i hi hi₀
      rw [hslots _ hi, ← h.zero hn i hi hi₀]
      apply hstep.disk
      intro j hj
      cases (h.maps _ hi).symm.trans hj
      exact hn rfl
    mallocs := hstep.mallocs.trans h.mallocs
    synced := fun hn hfile hok hs => hsynced (h.freeMapFile.trans hfile) (hok.of_suffix h.mallocs)
      (h.synced hn hfile hok hs) }

/-- A sector is allocated. -/
theorem allocate (hcan : CanAllocate s 1) :
    ∃ p s', freeMapAllocate 1 s = .ok (some p) s' ∧ p ∉ X ∧
      Growing n files s₀ d₀ S₀ owner₀ s' d S owner (insert p X) ∧
      DataOnly owner FREE_MAP_SECTOR s.disk s'.disk ∧
      ∀ k, CanAllocate s (k + 1) ↔ CanAllocate s' k := by
  obtain ⟨p, s', hrun, hclear, hstep, hmap, hsync, hcount⟩ := freeMapAllocate_some h.owned hcan
  have hlt := (List.getElem?_eq_some_iff.mp hclear).1
  have hfree := h.owned.free_of_clear hclear
  have hX : p ∉ X := by
    intro hp
    rw [(h.pending p hp).2.1] at hclear
    cases hclear
  have hbit : ∀ q, q ≠ p → s'.freeMap[q]? = s.freeMap[q]? := by
    intro q hq
    rw [hmap, List.getElem?_set_ne (Ne.symm hq)]
  have hclear₀ : s₀.freeMap[p]? = some false := by
    rw [← h.others p hX fun σ hσ _ => h.slot_ne_of_none hσ hfree]
    exact hclear
  refine ⟨p, s', hrun, hX, h.freeMapStep hstep (h.owned.allocated hstep hmap) ?_ ?_
    (fun hfile _ _ => hsync hfile), hstep.disk, hcount⟩
  · rintro q (rfl | hq)
    · refine ⟨hclear₀, ?_, hfree⟩
      rw [hmap, List.getElem?_set_self hlt]
    · rw [hbit q fun heq => hX (heq ▸ hq)]
      exact h.pending q hq
  · intro q hq hslot
    rw [hbit q fun heq => hq (.inl heq)]
    exact h.others q (fun hqX => hq (.inr hqX)) hslot

/-- A sector is not allocated. -/
theorem allocate_none (hcan : ¬ CanAllocate s 1) :
    ∃ s', freeMapAllocate 1 s = .ok none s' ∧ Growing n files s₀ d₀ S₀ owner₀ s' d S owner X := by
  obtain ⟨s', hrun, hstep, hmap, hsame⟩ := freeMapAllocate_none h.owned hcan
  refine ⟨s', hrun, h.freeMapStep hstep ?_ ?_ ?_ fun _ hok hs => (hsame hok).symm ▸ hs⟩
  · refine h.owned.freeMapStep hstep (by rw [hmap]) fun q r hq => ?_
    rw [hmap]
    exact h.owned.used q r hq
  · rw [hmap]
    exact h.pending
  · rw [hmap]
    exact h.others

/-- A pending sector is given back. -/
theorem release (hfile : s.freeMapFile = true) (hp : p ∈ X) :
    ∃ s', freeMapRelease p 1 s = .ok () s' ∧
      Growing n files s₀ d₀ S₀ owner₀ s' d S owner (X \ {p}) := by
  obtain ⟨hclear, hused, hfree⟩ := h.pending p hp
  obtain ⟨s', hrun, hstep, hmap, hsync⟩ := freeMapRelease_eq h.owned hfile hused hfree
  have hlt := (List.getElem?_eq_some_iff.mp hused).1
  have hbit : ∀ q, q ≠ p → s'.freeMap[q]? = s.freeMap[q]? := by
    intro q hq
    rw [hmap, List.getElem?_set_ne (Ne.symm hq)]
  refine ⟨s', hrun, h.freeMapStep hstep ?_ ?_ ?_ fun _ hok _ => hsync hok.canWrite⟩
  · refine h.owned.freeMapStep hstep (by rw [hmap, List.length_set]) fun q r hq => ?_
    rw [hbit q (ne_of_owner_none hfree hq)]
    exact h.owned.used q r hq
  · intro q hq
    rw [hbit q hq.2]
    exact h.pending q hq.1
  · intro q hq hslot
    by_cases hqp : q = p
    · subst hqp
      rw [hmap, List.getElem?_set_self hlt, hclear]
    · rw [hbit q hqp]
      exact h.others q (fun hqX => hq ⟨hqX, hqp⟩) hslot

/-! ### Writes -/

theorem lt_size (hp : p ∈ X) : p < s.size := by
  rw [← h.owned.len]
  exact (List.getElem?_eq_some_iff.mp (h.pending p hp).2.1).1

/-- A pending sector is written. -/
theorem writePending (hp : p ∈ X) (b : Memory) :
    blockWrite p b s = .ok () (s.setDisk (update s.disk p b)) ∧
      Growing n files s₀ d₀ S₀ owner₀ (s.setDisk (update s.disk p b)) d S owner X := by
  have hfree := (h.pending p hp).2.2
  have hslots : ∀ σ ∈ S, slotSector (update s.disk p b) d σ = slotSector s.disk d σ := by
    apply h.maps.slotSector_congr h.closed
    intro q τ hq _
    exact update_of_ne (ne_of_owner_none hfree hq) _ _
  refine ⟨blockWrite_eq (h.lt_size hp), ?_⟩
  exact {
    owned := h.owned.setDisk_free hfree b
    size := h.size
    freeMapFile := h.freeMapFile
    openInodes := h.openInodes
    mono := h.mono
    kept := fun q r hq hr => by
      rw [← h.kept q r hq hr]
      exact update_of_ne (ne_of_owner_none hfree (h.mono q r hq)) _ _
    sub := h.sub
    keeps := fun σ hσ => (hslots σ (h.sub hσ)).trans (h.keeps σ hσ)
    fresh := fun σ hσ hσ₀ => by
      rw [State.setDisk_disk, hslots σ hσ]
      exact h.fresh σ hσ hσ₀
    pending := h.pending
    others := fun q hq hslot => h.others q hq fun σ hσ hσ₀ => by
      rw [← hslots σ hσ]
      exact hslot σ hσ hσ₀
    fields := h.fields
    same := fun heq => ⟨(h.same heq).1, fun q r hq hr =>
      (update_of_ne (ne_of_owner_none hfree (h.mono q r hq)) _ _).trans ((h.same heq).2 q r hq hr)⟩
    zero := fun hn i hi hi₀ => by
      rw [State.setDisk_disk, hslots _ hi,
        update_of_ne (h.slot_ne_of_none hi hfree)]
      exact h.zero hn i hi hi₀
    mallocs := h.mallocs
    synced := fun hn hfile hok hs => Synced.congr h.owned (h.synced hn hfile hok hs)
      (h.freeMapFile.trans hfile) fun q τ hq =>
        update_of_ne (ne_of_owner_none hfree hq) _ _ }

/-- A pending sector gets a slot: what has to be shown of the sectors. -/
theorem link (hp : p ∈ X) (hσ : σ ∉ S) (disk' : Sector → Memory) {d' : Memory}
    (howned : Owned (s.setDisk disk') (update files n (some (d', insert σ S)))
      (update owner p (some (n, some σ))))
    (hslots : ∀ τ ∈ S, slotSector disk' d' τ = slotSector s.disk d τ)
    (hnew : slotSector disk' d' σ = p)
    (hdisk : ∀ q r, owner q = some r → ¬ IndexOf n r → disk' q = s.disk q)
    (hfields : ∀ x, x < 8 ∨ 508 ≤ x → d' x = d x)
    (hzero : ∀ i, σ = .data i → disk' p = zeros) :
    Growing n files s₀ d₀ S₀ owner₀ (s.setDisk disk') d' (insert σ S)
      (update owner p (some (n, some σ))) (X \ {p}) := by
  obtain ⟨hclear, hused, hfree⟩ := h.pending p hp
  have hmono : ∀ q r, owner q = some r → update owner p (some (n, some σ)) q = some r := by
    intro q r hq
    rw [update_of_ne (ne_of_owner_none hfree hq)]
    exact hq
  exact {
    owned := howned
    size := h.size
    freeMapFile := h.freeMapFile
    openInodes := h.openInodes
    mono := fun q r hq => hmono q r (h.mono q r hq)
    kept := fun q r hq hr => (hdisk q r (h.mono q r hq) hr.not_index).trans (h.kept q r hq hr)
    sub := fun τ hτ => .inr (h.sub hτ)
    keeps := fun τ hτ => (hslots τ (h.sub hτ)).trans (h.keeps τ hτ)
    fresh := by
      rintro τ (rfl | hτ) hτ₀
      · rw [State.setDisk_disk, hnew]
        exact hclear
      · rw [State.setDisk_disk, hslots τ hτ]
        exact h.fresh τ hτ hτ₀
    pending := by
      intro q hq
      rw [update_of_ne hq.2]
      exact h.pending q hq.1
    others := by
      intro q hq hslot
      have hqp : q ≠ p := by
        rintro rfl
        exact hslot σ (.inl rfl) (fun hσ₀ => hσ (h.sub hσ₀)) hnew
      refine h.others q (fun hqX => hq ⟨hqX, hqp⟩) fun τ hτ hτ₀ => ?_
      rw [← hslots τ hτ]
      exact hslot τ (.inr hτ) hτ₀
    fields := fun x hx => (hfields x hx).trans (h.fields x hx)
    same := fun heq => absurd (h.sub (heq ▸ Set.mem_insert σ S)) hσ
    zero := by
      rintro hn i (hi | hi) hi₀
      · rw [State.setDisk_disk, hi, hnew]
        exact hzero i hi.symm
      · rw [State.setDisk_disk, hslots _ hi, hdisk _ _ (h.maps _ hi) fun hc => hc]
        exact h.zero hn i hi hi₀
    mallocs := h.mallocs
    synced := fun hn hfile hok hs => Synced.congr h.owned (h.synced hn hfile hok hs)
      (h.freeMapFile.trans hfile) fun q τ hq => hdisk q _ hq (not_indexOf_of_ne (Ne.symm hn) _) }

end

/-- The pointers of the inode itself lie between `magic` and `is_dir`. -/
theorem pos_of_root (hroot : σ.parent = none) : 8 ≤ σ.pos ∧ σ.pos + 4 ≤ 508 := by
  cases σ with
  | data i =>
    obtain ⟨hi, -, hpos⟩ | ⟨-, -, hp, -⟩ | ⟨o, -, -, -, hp, -⟩ := Slot.data_cases i
    · omega
    · cases hp.symm.trans hroot
    · cases hp.symm.trans hroot
  | indirect => decide
  | doubly => decide
  | inner o => cases hroot

/-- A pointer in the inode itself is set to a pending sector. -/
theorem linkRoot (h : Growing n files s₀ d₀ S₀ owner₀ s d S owner X) (hp : p ∈ X) (hσ : σ ∉ S)
    (hroot : σ.parent = none) (hzero : ∀ i, σ = .data i → s.disk p = zeros) :
    Growing n files s₀ d₀ S₀ owner₀ s (setWord d σ.pos p) (insert σ S)
      (update owner p (some (n, some σ))) (X \ {p}) := by
  obtain ⟨-, hused, hfree⟩ := h.pending p hp
  have hlt := h.owned.lt_two_pow hused
  have hpos := pos_of_root hroot
  have hslots : ∀ τ ∈ S, slotSector s.disk (setWord d σ.pos p) τ = slotSector s.disk d τ :=
    Maps.slotSector_setWord h.closed hσ hroot p
  have hword : ∀ τ ∈ S, Slot.parent τ = none → word (setWord d σ.pos p) τ.pos = word d τ.pos := by
    intro τ hτ hτroot
    have hne : σ ≠ τ := fun heq => hσ (heq ▸ hτ)
    exact word_setWord_of_disjoint (Slot.pos_disjoint hne (hroot.trans hτroot.symm)).symm
  refine h.link hp hσ s.disk ?_ hslots ?_ (fun _ _ _ _ => rfl) ?_ hzero
  · have := h.owned.link h.live (fun τ hτ => by rw [hroot] at hτ; cases hτ) hfree hused
      (h.maps.insert_root h.closed hσ hroot hlt hfree) hword (fun _ _ _ _ _ => rfl)
    rw [update_idem] at this
    exact this
  · rw [slotSector_eq, hroot]
    exact word_setWord_self hlt
  · intro x hx
    exact setWord_of_not_mem (by omega)

/-- A pointer in an index block is set to a pending sector. -/
theorem linkBlock (h : Growing n files s₀ d₀ S₀ owner₀ s d S owner X) (hp : p ∈ X) (hσ : σ ∉ S)
    (hparent : σ.parent = some ρ) (hρ : ρ ∈ S) (hzero : ∀ i, σ = .data i → s.disk p = zeros) :
    blockWrite (slotSector s.disk d ρ) (setWord (s.disk (slotSector s.disk d ρ)) σ.pos p) s =
        .ok () (s.setDisk (update s.disk (slotSector s.disk d ρ)
          (setWord (s.disk (slotSector s.disk d ρ)) σ.pos p))) ∧
      Growing n files s₀ d₀ S₀ owner₀ (s.setDisk (update s.disk (slotSector s.disk d ρ)
          (setWord (s.disk (slotSector s.disk d ρ)) σ.pos p))) d (insert σ S)
        (update owner p (some (n, some σ))) (X \ {p}) := by
  obtain ⟨-, hused, hfree⟩ := h.pending p hp
  have hlt := h.owned.lt_two_pow hused
  have hblock := h.maps ρ hρ
  have hindex : ∀ j, ρ ≠ .data j := by
    rintro j rfl
    exact Slot.parent_ne_data σ j hparent
  have hslots := h.maps.slotSector_update h.closed hσ hparent hρ p
  refine ⟨blockWrite_eq (h.owned.onDevice _ _ hblock), ?_⟩
  refine h.link hp hσ _ ?_ hslots ?_ ?_ (fun _ _ => rfl) ?_
  · have := h.owned.link h.live (fun τ hτ => by rw [hparent] at hτ; cases hτ; exact hρ) hfree hused
      (h.maps.insert_block h.closed hσ hparent hρ hlt hfree) (fun _ _ _ => rfl)
      (fun q τ m hm hq => update_of_ne (fun heq => by
        rw [heq, hblock] at hq
        cases hq
        exact hm rfl) _ _)
    rw [update_idem] at this
    exact this
  · rw [slotSector_eq, hparent]
    simp only [pointerBlock]
    rw [hslots ρ hρ, update_self, word_setWord_self hlt]
  · intro q r hq hr
    refine update_of_ne ?_ _ _
    rintro rfl
    cases hblock.symm.trans hq
    cases ρ with
    | data j => exact hindex j rfl
    | indirect => exact hr rfl
    | doubly => exact hr rfl
    | inner o => exact hr rfl
  · intro i hi
    rw [update_of_ne (h.slot_ne_of_none hρ hfree).symm]
    exact hzero i hi

end Growing

end Pintos.Fs
