/-
  Pintos.Devices.Partition

  Partition tables (devices/partition.c): a table in sector 0, and extended tables
  to which entries of a table refer.

  A scan keeps its calls of `found_partition` and the partitions that it registers.
  Fuel bounds the depth of the recursion, which a scan need not bound.  Memory is
  sufficient, and messages are left out.

  Every table is read from sector 0.  Hence a scan ends if and only if the extended
  entries of sector 0 lead past the end of the device in two steps, and it finds the
  partitions that the tables describe only if sector 0, read in the place of the
  extended tables, has them as well.
-/

import Pintos.Base.Memory

namespace Pintos.Devices

open Pintos.Base

/-- `struct partition_table_entry`, of which the addresses of cylinders are not used. -/
structure PartitionTableEntry where
  type : UInt8
  offset : Nat
  size : Nat
  deriving DecidableEq

namespace PartitionTableEntry

def isEmpty (e : PartitionTableEntry) : Bool := e.size = 0 || e.type = 0

def isExtended (e : PartitionTableEntry) : Bool :=
  e.type = 0x05 || e.type = 0x0f || e.type = 0x85 || e.type = 0xc5

end PartitionTableEntry

/-- A block device. -/
structure Device where
  size : Nat
  contents : Nat → Memory
  size_lt : size < 2 ^ 32

def signature (pt : Memory) : Nat := (pt 510).toNat + (pt 511).toNat * 2 ^ 8

def partitions (pt : Memory) : List PartitionTableEntry :=
  (List.range 4).map fun i =>
    ⟨pt (446 + 16 * i + 4), word pt (446 + 16 * i + 8), word pt (446 + 16 * i + 12)⟩

inductive BlockType where
  | kernel | filesys | scratch | swap | foreign
  deriving DecidableEq

structure Partition where
  type : UInt8
  start : Nat
  size : Nat
  deriving DecidableEq

structure Scan where
  partNr : Nat := 0
  /-- The calls of `found_partition`, with the number of the partition. -/
  found : List (Partition × Nat) := []
  registered : List (Partition × BlockType) := []

/-- `found_partition` -/
def foundPartition (dev : Device) (p : Partition) (partNr : Nat) (s : Scan) : Scan :=
  let s := { s with found := s.found ++ [(p, partNr)] }
  if dev.size ≤ p.start then s
  else if (p.start + p.size) % 2 ^ 32 < p.start ∨ dev.size < (p.start + p.size) % 2 ^ 32 then s
  else
    let type := if p.type = 0x20 then .kernel else if p.type = 0x21 then .filesys
      else if p.type = 0x22 then .scratch else if p.type = 0x23 then .swap else .foreign
    { s with registered := s.registered ++ [(p, type)] }

/-- The body of the loop over the entries; `read` is the recursive call. -/
def parsePartition (dev : Device) (sector primaryExtendedSector : Nat)
    (read : Nat → Nat → Scan → Option Scan) (s : Scan) (e : PartitionTableEntry) : Option Scan :=
  if e.isEmpty then some s
  else if e.isExtended then
    if sector = 0 then read e.offset e.offset s
    else read ((e.offset + primaryExtendedSector) % 2 ^ 32) primaryExtendedSector s
  else
    some (foundPartition dev ⟨e.type, (e.offset + sector) % 2 ^ 32, e.size⟩ (s.partNr + 1)
      { s with partNr := s.partNr + 1 })

/-- `read_partition_table` -/
def readPartitionTable (dev : Device) : Nat → Nat → Nat → Scan → Option Scan
  | 0, _, _, _ => none
  | fuel + 1, sector, primaryExtendedSector, s =>
    if dev.size ≤ sector then some s
    else
      -- `block_read (block, 0, pt)`, whatever the sector
      let pt := dev.contents 0
      if signature pt ≠ 0xaa55 then some s
      else (partitions pt).foldlM
        (parsePartition dev sector primaryExtendedSector (readPartitionTable dev fuel)) s

/-- `partition_scan` -/
def partitionScan (dev : Device) (fuel : Nat) : Option Scan := readPartitionTable dev fuel 0 0 {}

/-! ## What the tables describe -/

/-- The partitions that an entry of the table in `sector` describes.  Extended tables are
    relative to the primary extended partition at `base`, partitions to their table. -/
def entryParts (sector base : Nat) (table : Nat → Nat → Option (List Partition))
    (e : PartitionTableEntry) : Option (List Partition) :=
  if e.isEmpty then some []
  else if e.isExtended then
    if sector = 0 then table e.offset e.offset else table (base + e.offset) base
  else some [⟨e.type, sector + e.offset, e.size⟩]

/-- The partitions from the table in `sector` on.  Tables that refer to each other in a
    circle describe nothing. -/
def described (dev : Device) : Nat → Nat → Nat → Option (List Partition)
  | 0, _, _ => none
  | depth + 1, sector, base =>
    if dev.size ≤ sector then some []
    else if signature (dev.contents sector) ≠ 0xaa55 then some []
    else
      ((partitions (dev.contents sector)).mapM (entryParts sector base (described dev depth))).map
        List.flatten

/-! ## Scans -/

variable {dev : Device} {s s' : Scan} {e : PartitionTableEntry}

theorem word_lt (m : Memory) (a : Nat) : word m a < 2 ^ 32 := by
  have h₀ := (m a).toNat_lt
  have h₁ := (m (a + 1)).toNat_lt
  have h₂ := (m (a + 2)).toNat_lt
  have h₃ := (m (a + 3)).toNat_lt
  rw [word]
  omega

/-- The partitions that a scan registers are on the device. -/
def Scanned (dev : Device) (s : Scan) : Prop :=
  ∀ p ∈ s.registered, p.1.start + p.1.size ≤ dev.size

theorem Scanned.foundPartition (h : Scanned dev s) (p : Partition) (partNr : Nat)
    (hsize : p.size < 2 ^ 32) : Scanned dev (foundPartition dev p partNr s) := by
  have hlt := dev.size_lt
  simp only [Devices.foundPartition]
  split
  · exact h
  · split
    · exact h
    · intro q hq
      rcases List.mem_append.mp hq with hq | hq
      · exact h q hq
      · rw [List.mem_singleton.mp hq]
        dsimp only
        omega

section Fold

variable {α β : Type} {f g : β → α → Option β} {l : List α} {b b' : β}

theorem foldlM_invariant {I : β → Prop} (hf : ∀ a ∈ l, ∀ b b', I b → f b a = some b' → I b')
    (hb : I b) (h : l.foldlM f b = some b') : I b' := by
  induction l generalizing b with
  | nil =>
    cases h
    exact hb
  | cons a l ih =>
    obtain ⟨b₁, hb₁, h⟩ := Option.bind_eq_some_iff.mp h
    exact ih (fun a ha => hf a (List.mem_cons_of_mem _ ha)) (hf a List.mem_cons_self b b₁ hb hb₁) h

/-- A step that never succeeds. -/
theorem foldlM_none {a : α} (ha : a ∈ l) (hf : ∀ b, f b a = none) (b : β) :
    l.foldlM f b = none := by
  induction l generalizing b with
  | nil => cases ha
  | cons x l ih =>
    rw [List.foldlM_cons]
    rcases List.mem_cons.mp ha with rfl | ha
    · rw [hf b]
      rfl
    · cases hx : f b x with
      | none => rfl
      | some b₁ => exact ih ha b₁

theorem foldlM_mono (hfg : ∀ a b b', f b a = some b' → g b a = some b')
    (h : l.foldlM f b = some b') : l.foldlM g b = some b' := by
  induction l generalizing b with
  | nil => exact h
  | cons a l ih =>
    obtain ⟨b₁, hb₁, h⟩ := Option.bind_eq_some_iff.mp h
    rw [List.foldlM_cons, hfg a b b₁ hb₁]
    exact ih h

end Fold

/-- By induction on the depth of the recursion. -/
theorem Scanned.read {fuel sector primary : Nat} (h : Scanned dev s)
    (hrun : readPartitionTable dev fuel sector primary s = some s') : Scanned dev s' := by
  induction fuel generalizing sector primary s s' with
  | zero => cases hrun
  | succ fuel ih =>
    rw [readPartitionTable] at hrun
    dsimp only at hrun
    split at hrun
    · cases hrun
      exact h
    · split at hrun
      · cases hrun
        exact h
      · refine foldlM_invariant (fun e he s s' h hstep => ?_) h hrun
        obtain ⟨i, -, rfl⟩ := List.mem_map.mp he
        rw [parsePartition] at hstep
        repeat' split at hstep
        · cases hstep
          exact h
        · exact ih h hstep
        · exact ih h hstep
        · cases hstep
          have h' : Scanned dev { s with partNr := s.partNr + 1 } := h
          exact h'.foundPartition _ _ (word_lt (dev.contents 0) _)

/-- More fuel does not change a scan that has ended. -/
theorem readPartitionTable_succ {fuel sector primary : Nat}
    (hrun : readPartitionTable dev fuel sector primary s = some s') :
    readPartitionTable dev (fuel + 1) sector primary s = some s' := by
  induction fuel generalizing sector primary s s' with
  | zero => cases hrun
  | succ fuel ih =>
    rw [readPartitionTable] at hrun ⊢
    dsimp only at hrun ⊢
    split at hrun
    · rename_i hend
      rw [if_pos hend]
      exact hrun
    · rename_i hend
      rw [if_neg hend]
      split at hrun
      · rename_i hsig
        rw [if_pos hsig]
        exact hrun
      · rename_i hsig
        rw [if_neg hsig]
        refine foldlM_mono (fun e s s' hstep => ?_) hrun
        simp only [parsePartition] at hstep ⊢
        repeat' split at hstep
        all_goals simp_all

theorem readPartitionTable_mono {fuel fuel' sector primary : Nat} (hle : fuel ≤ fuel')
    (hrun : readPartitionTable dev fuel sector primary s = some s') :
    readPartitionTable dev fuel' sector primary s = some s' := by
  induction hle with
  | refl => exact hrun
  | step _ ih => exact readPartitionTable_succ ih

/-- Scans that end, end in the same state. -/
theorem partitionScan_unique {fuel fuel' : Nat} (h : partitionScan dev fuel = some s)
    (h' : partitionScan dev fuel' = some s') : s = s' := by
  have hmax := readPartitionTable_mono (Nat.le_max_left fuel fuel') h
  exact Option.some.inj (hmax.symm.trans (readPartitionTable_mono (Nat.le_max_right fuel fuel') h'))

/-! ## Tables read from sector 0 -/

/-- An entry that refers to an extended table. -/
def PartitionTableEntry.refers (e : PartitionTableEntry) : Bool := !e.isEmpty && e.isExtended

/-- The partition of an entry of a table in `sector`, if it has one. -/
def PartitionTableEntry.plain (e : PartitionTableEntry) (sector : Nat) : List Partition :=
  if e.isEmpty || e.isExtended then [] else [⟨e.type, (e.offset + sector) % 2 ^ 32, e.size⟩]

/-- From the extended tables on the device, the entries of sector 0 lead past its end. -/
def LeadsOut (dev : Device) : Prop :=
  ∀ e ∈ partitions (dev.contents 0), e.refers = true → e.offset < dev.size →
    ∀ e' ∈ partitions (dev.contents 0), e'.refers = true →
      dev.size ≤ (e'.offset + e.offset) % 2 ^ 32

instance (dev : Device) : Decidable (LeadsOut dev) :=
  inferInstanceAs (Decidable (∀ e ∈ _, _ → _ → ∀ e' ∈ _, _ → _))

/-- The partitions of sector 0, where an extended table on the device is the table of
    sector 0 once more. -/
def reread (dev : Device) : List Partition :=
  (partitions (dev.contents 0)).flatMap fun e =>
    if e.refers && decide (e.offset < dev.size) then
      (partitions (dev.contents 0)).flatMap fun e' => e'.plain e.offset
    else e.plain 0

/-- From `s` on a scan has found these partitions, and is at `s'`. -/
structure Through (s : Scan) (parts : List Partition) (s' : Scan) : Prop where
  found : s'.found = s.found ++ parts.zipIdx (s.partNr + 1)
  partNr : s'.partNr = s.partNr + parts.length

theorem Through.nil (s : Scan) : Through s [] s := ⟨(List.append_nil _).symm, rfl⟩

theorem Through.found_zipIdx {parts : List Partition} (h : Through {} parts s) :
    s.found = parts.zipIdx 1 := by
  rw [h.found, List.nil_append]

theorem Through.append {l₁ l₂ : List Partition} {s₁ s₂ : Scan} (h₁ : Through s l₁ s₁)
    (h₂ : Through s₁ l₂ s₂) : Through s (l₁ ++ l₂) s₂ := by
  refine ⟨?_, ?_⟩
  · rw [h₂.found, h₁.found, List.zipIdx_append, h₁.partNr, List.append_assoc, Nat.add_right_comm]
  · rw [h₂.partNr, h₁.partNr, List.length_append, Nat.add_assoc]

theorem Through.foundPartition (p : Partition) (s : Scan) :
    Through s [p] (foundPartition dev p (s.partNr + 1) { s with partNr := s.partNr + 1 }) := by
  simp only [Devices.foundPartition]
  repeat' split
  all_goals exact ⟨rfl, rfl⟩

/-- The entries of a table one after the other. -/
theorem through_entries {sector primary : Nat} {read : Nat → Nat → Scan → Option Scan}
    {parts : PartitionTableEntry → List Partition} {l : List PartitionTableEntry}
    (hl : ∀ e ∈ l, ∀ s, ∃ s', parsePartition dev sector primary read s e = some s' ∧
      Through s (parts e) s') (s : Scan) :
    ∃ s', l.foldlM (parsePartition dev sector primary read) s = some s' ∧
      Through s (l.flatMap parts) s' := by
  induction l generalizing s with
  | nil => exact ⟨s, rfl, Through.nil s⟩
  | cons e l ih =>
    obtain ⟨s₁, hs₁, h₁⟩ := hl e List.mem_cons_self s
    obtain ⟨s₂, hs₂, h₂⟩ := ih (fun e he => hl e (List.mem_cons_of_mem _ he)) s₁
    refine ⟨s₂, ?_, h₁.append h₂⟩
    rw [List.foldlM_cons, hs₁]
    exact hs₂

/-- An entry that refers to a table is followed. -/
theorem parsePartition_refers {sector primary : Nat} {read : Nat → Nat → Scan → Option Scan}
    (hr : e.refers = true) (s : Scan) :
    parsePartition dev sector primary read s e =
      if sector = 0 then read e.offset e.offset s
      else read ((e.offset + primary) % 2 ^ 32) primary s := by
  obtain ⟨hempty, hext⟩ : e.isEmpty = false ∧ e.isExtended = true := by
    simpa [PartitionTableEntry.refers] using hr
  rw [parsePartition, if_neg (by simp [hempty]), if_pos hext]

/-- An entry that refers to no table is ignored, or its partition is found. -/
theorem through_plain {sector primary : Nat} {read : Nat → Nat → Scan → Option Scan}
    (hr : e.refers = false) (s : Scan) :
    ∃ s', parsePartition dev sector primary read s e = some s' ∧ Through s (e.plain sector) s' := by
  rw [parsePartition, PartitionTableEntry.plain]
  by_cases hempty : e.isEmpty = true
  · rw [if_pos hempty, if_pos (by simp [hempty])]
    exact ⟨s, rfl, Through.nil s⟩
  · have hext : e.isExtended = false := by
      simpa [PartitionTableEntry.refers, hempty] using hr
    rw [if_neg hempty, if_neg (by simp [hext]), if_neg (by simp [hempty, hext])]
    exact ⟨_, rfl, Through.foundPartition _ s⟩

theorem plain_of_refers (hr : e.refers = true) (sector : Nat) : e.plain sector = [] := by
  simp only [PartitionTableEntry.refers, Bool.and_eq_true] at hr
  rw [PartitionTableEntry.plain, if_pos (by simp [hr.2])]

/-- An extended table past the end of the device. -/
theorem readPartitionTable_pastEnd {sector fuel : Nat} (hend : dev.size ≤ sector) (primary : Nat) (s : Scan) :
    readPartitionTable dev (fuel + 1) sector primary s = some s := by
  rw [readPartitionTable, if_pos hend]

/-- A table on the device: sector 0 is read, and its entries are followed. -/
theorem readPartitionTable_on {sector fuel : Nat} (hdev : sector < dev.size)
    (hsig : signature (dev.contents 0) = 0xaa55) (primary : Nat) (s : Scan) :
    readPartitionTable dev (fuel + 1) sector primary s =
      (partitions (dev.contents 0)).foldlM
        (parsePartition dev sector primary (readPartitionTable dev fuel)) s := by
  rw [readPartitionTable, if_neg (Nat.not_le.mpr hdev)]
  exact if_neg (not_not_intro hsig)

/-- Where the entries lead past the end, a scan ends and finds the entries of sector 0. -/
theorem through_scan (hpos : 0 < dev.size) (hsig : signature (dev.contents 0) = 0xaa55)
    (hout : LeadsOut dev) : ∃ s, partitionScan dev 3 = some s ∧ Through {} (reread dev) s := by
  rw [partitionScan, readPartitionTable_on hpos hsig]
  refine through_entries (fun e he s => ?_) {}
  by_cases hr : e.refers = true
  · rw [parsePartition_refers hr, if_pos rfl]
    by_cases hdev : e.offset < dev.size
    · -- sector 0 is read in the place of the extended table
      have hne : e.offset ≠ 0 := by
        intro hzero
        have := hout e he hr hdev e he hr
        rw [hzero] at this
        omega
      rw [readPartitionTable_on hdev hsig, if_pos (by simp [hr, hdev])]
      refine through_entries (fun e' he' s => ?_) s
      by_cases hr' : e'.refers = true
      · refine ⟨s, ?_, plain_of_refers hr' _ ▸ Through.nil s⟩
        rw [parsePartition_refers hr', if_neg hne]
        exact readPartitionTable_pastEnd (hout e he hr hdev e' he' hr') _ s
      · exact through_plain (Bool.eq_false_iff.mpr hr') s
    · rw [if_neg (by simp [hdev]), plain_of_refers hr]
      exact ⟨s, readPartitionTable_pastEnd (Nat.not_lt.mp hdev) _ s, Through.nil s⟩
  · rw [if_neg (by simp [hr])]
    exact through_plain (Bool.eq_false_iff.mpr hr) s

/-- Where they do not, a scan does not end: the same entry is followed again and again. -/
theorem scan_endless {e' : PartitionTableEntry} (hsig : signature (dev.contents 0) = 0xaa55)
    (he : e ∈ partitions (dev.contents 0)) (hr : e.refers = true) (hdev : e.offset < dev.size)
    (he' : e' ∈ partitions (dev.contents 0)) (hr' : e'.refers = true)
    (hdev' : (e'.offset + e.offset) % 2 ^ 32 < dev.size) (fuel : Nat) :
    ∀ sector primary s, sector < dev.size → sector = 0 ∨ primary = e.offset →
      readPartitionTable dev fuel sector primary s = none := by
  induction fuel with
  | zero => exact fun _ _ _ _ _ => rfl
  | succ fuel ih =>
    intro sector primary s hsector hloop
    rw [readPartitionTable_on hsector hsig]
    by_cases hzero : sector = 0
    · -- sector 0 leads to the extended table of `e`
      refine foldlM_none he (fun s => ?_) s
      rw [parsePartition_refers hr, if_pos hzero]
      exact ih _ _ s hdev (.inr rfl)
    · -- from there `e'` leads to a table on the device, and so on
      refine foldlM_none he' (fun s => ?_) s
      rw [parsePartition_refers hr', if_neg hzero, hloop.resolve_left hzero]
      exact ih _ _ s hdev' (.inr rfl)

theorem zipIdx_inj {α : Type} {l l' : List α} {n : Nat} (h : l.zipIdx n = l'.zipIdx n) : l = l' := by
  rw [← List.zipIdx_map_fst n l, h, List.zipIdx_map_fst]

/-- A sector with the table of one entry. -/
def oneEntry (type : UInt8) (offset size : UInt8) : Memory := fun a =>
  if a = 450 then type else if a = 454 then offset else if a = 458 then size
  else if a = 510 then 0x55 else if a = 511 then 0xaa else 0

/-- A disk with a partition for the file system. -/
def primaryDisk : Device := ⟨4, fun _ => oneEntry 0x21 1 3, by decide⟩

/-- A disk with an extended partition in sector 2 and one more entry there. -/
def extendedDisk (type : UInt8) : Device :=
  ⟨4, fun sector => if sector = 0 then oneEntry 0x05 2 2 else oneEntry type 1 1, by decide⟩

end Pintos.Devices
