/-
  Pintos.Fs.Programs

  The programs of the inode layer, walked through once.

  None of them opens or closes an inode, and each uses indices in range if it is
  asked for what an inode can hold.  `Keeps` says both for an invariant of the
  open inodes and a set of stops to be avoided; a claim about indices comes as a
  hypothesis only where an index out of range is one of these stops.
-/

import Pintos.Fs.Transfer
import Pintos.Fs.OpenInodes

namespace Pintos.Fs

open Pintos.Base Pintos.Lib

/-- From a state with `I` the program returns in such a state, or it stops with
    something that is not in `bad`. -/
structure Keeps (I : State → Prop) (bad : Stop → Prop) {α : Type} (p : M α) : Prop where
  triple : Triple I p (fun _ => I) fun e _ => ¬ bad e

/-- The invariant is about the open inodes, and only an index out of range is to be
    avoided; if it is, then the free map's file is inside the capacity of an inode. -/
structure Ambient (I : State → Prop) (bad : Stop → Prop) : Prop where
  congr : ∀ s s', s'.openInodes = s.openInodes → I s → I s'
  stop : ∀ e, bad e → e = .indexRange
  freeMap : ∀ s i, I s → s.inode? FREE_MAP_SECTOR = some i → bad .indexRange →
    length i.data ≤ BLOCK_SECTOR_SIZE * capacity

variable {α β : Type} {I : State → Prop} {bad : Stop → Prop} {d : Memory}

namespace Ambient

theorem pure (a : α) : Keeps I bad (pure a : M α) := ⟨Triple.pure fun _ h => h⟩

theorem bind {p : M α} {f : α → M β} (hp : Keeps I bad p) (hf : ∀ a, Keeps I bad (f a)) :
    Keeps I bad (p >>= f) := ⟨Triple.bind hp.triple fun a => (hf a).triple⟩

theorem ite {c : Prop} [Decidable c] {p q : M α} (hp : c → Keeps I bad p)
    (hq : ¬ c → Keeps I bad q) : Keeps I bad (if c then p else q) := by
  split
  · exact hp ‹_›
  · exact hq ‹_›

theorem get {f : State → M α} (h : ∀ s, I s → Keeps I bad (f s)) :
    Keeps I bad ((MonadState.get : M State) >>= f) := ⟨fun s hs => (h s hs).triple s hs⟩

theorem set {s : State} (h : I s) : Keeps I bad (set s : M PUnit) := ⟨fun _ _ => h⟩

variable (h : Ambient I bad)

include h

theorem throw {e : Stop} (he : e ≠ .indexRange) : Keeps I bad (throw e : M α) :=
  ⟨Triple.throw fun _ _ hbad => he (h.stop e hbad)⟩

theorem malloc : Keeps I bad malloc := by
  refine ⟨fun s hs => ?_⟩
  rw [malloc_eq]
  exact h.congr s _ rfl hs

theorem blockRead (p : Sector) : Keeps I bad (blockRead p) := by
  refine ⟨fun s hs => ?_⟩
  by_cases hp : p < s.size
  · rw [blockRead_eq hp]
    exact hs
  · rw [Fs.blockRead, if_neg hp]
    exact fun hbad => absurd (h.stop _ hbad) (by decide)

theorem blockWrite (p : Sector) (b : Memory) : Keeps I bad (blockWrite p b) := by
  refine ⟨fun s hs => ?_⟩
  by_cases hp : p < s.size
  · rw [blockWrite_eq hp]
    exact h.congr s _ rfl hs
  · rw [Fs.blockWrite, if_neg hp]
    exact fun hbad => absurd (h.stop _ hbad) (by decide)

omit h in
/-- An access through an index. -/
theorem index {c : Prop} [Decidable c] (hc : bad .indexRange → c) (a : α) :
    Keeps I bad (if c then Pure.pure a else MonadExcept.throw .indexRange : M α) := by
  exact ite (fun _ => pure a) fun hout => ⟨Triple.throw fun _ _ hbad => hout (hc hbad)⟩

omit h in
theorem direct (d : Memory) {i : Nat} (hi : bad .indexRange → i < DIRECT_BLOCKS) :
    Keeps I bad (direct d i) := index hi _

omit h in
theorem setDirect (d : Memory) {i : Nat} (hi : bad .indexRange → i < DIRECT_BLOCKS) (p : Sector) :
    Keeps I bad (setDirect d i p) := index hi _

omit h in
theorem ptr (b : Memory) {i : Nat} (hi : bad .indexRange → i < PTRS_PER_SECTOR) :
    Keeps I bad (ptr b i) := index hi _

omit h in
theorem setPtr (b : Memory) {i : Nat} (hi : bad .indexRange → i < PTRS_PER_SECTOR) (p : Sector) :
    Keeps I bad (setPtr b i p) := index hi _

/-! ## Reading and writing -/

theorem byteToSector (hd : bad .indexRange → length d ≤ BLOCK_SECTOR_SIZE * capacity) (pos : Nat) :
    Keeps I bad (byteToSector d pos) := by
  rw [Fs.byteToSector]
  dsimp only
  refine ite (fun _ => pure _) fun hpos => ?_
  refine ite (fun hdirect => direct d fun _ => hdirect) fun hdirect => ?_
  refine ite (fun hindirect => bind (h.blockRead _) fun b => ptr b fun _ => hindirect)
    fun hindirect => ?_
  refine bind (h.blockRead _) fun outer => bind (ptr _ fun hbad => ?_) fun p =>
    bind (h.blockRead p) fun inner => ptr _ fun _ => Nat.mod_lt _ (by decide)
  have hd := hd hbad
  rw [capacity_eq] at hd
  simp only [BLOCK_SECTOR_SIZE, DIRECT_BLOCKS, PTRS_PER_SECTOR] at hd hpos hdirect hindirect ⊢
  omega

theorem getBounce (b : Bool) : Keeps I bad (getBounce b) := ite (fun _ => pure _) fun _ => h.malloc

theorem writeLoop (hd : bad .indexRange → length d ≤ BLOCK_SECTOR_SIZE * capacity) (n : Nat) :
    ∀ (buffer : List UInt8) (offset : Nat) (bounce : Bool),
      Keeps I bad (writeLoop d n buffer offset bounce) := by
  induction n with
  | zero =>
    intro buffer offset bounce
    exact pure _
  | succ n ih =>
    intro buffer offset bounce
    rw [Fs.writeLoop]
    refine ite (fun _ => pure _) fun _ => bind (h.byteToSector hd offset) fun sector => ?_
    dsimp only
    refine ite (fun _ => pure _) fun _ => ite (fun _ => ?_) fun _ => ?_
    · exact bind (h.blockWrite _ _) fun _ => bind (ih _ _ _) fun _ => pure _
    · refine bind (h.getBounce _) fun b => ite (fun _ => ?_) fun _ => pure _
      refine ite (fun _ => bind (h.blockRead _) fun _ => ?_) fun _ => bind (pure _) fun _ => ?_
      · exact bind (h.blockWrite _ _) fun _ => bind (ih _ _ _) fun _ => pure _
      · exact bind (h.blockWrite _ _) fun _ => bind (ih _ _ _) fun _ => pure _

/-! ## The free map -/

theorem bitmapWrite : Keeps I bad bitmapWrite := by
  refine get fun s hs => ite (fun _ => h.throw (by decide)) fun _ => ?_
  cases hi : s.inode? FREE_MAP_SECTOR with
  | none => exact h.throw (by decide)
  | some i =>
    dsimp only
    refine ite (fun _ => pure _) fun _ => ite (fun _ => h.throw (by decide)) fun _ => ?_
    exact bind (h.writeLoop (h.freeMap s i hs hi) _ _ _ _) fun _ => pure _

theorem setFreeMap (f : State → List Bool) :
    Keeps I bad (modify fun s => s.setFreeMap (f s) : M PUnit) := ⟨fun s => h.congr s _ rfl⟩

theorem freeMapAllocate (cnt : Nat) : Keeps I bad (freeMapAllocate cnt) := by
  refine get fun s hs => ?_
  cases bitmapScanAndFlip s.freeMap 0 cnt false with
  | none => exact pure _
  | some r =>
    obtain ⟨p, freeMap⟩ := r
    refine bind (set (h.congr s _ rfl hs)) fun _ => ite (fun _ => ?_) fun _ => pure _
    exact bind h.bitmapWrite fun ok => ite (fun _ => pure _) fun _ =>
      bind (h.setFreeMap _) fun _ => pure _

theorem freeMapRelease (p : Sector) (cnt : Nat) : Keeps I bad (freeMapRelease p cnt) := by
  refine get fun s hs => ite (fun _ => ?_) fun _ => h.throw (by decide)
  exact bind (set (h.congr s _ rfl hs)) fun _ => bind h.bitmapWrite fun _ => pure _

/-! ## Growing -/

theorem extendFails (d : Memory) (p : Sector) : Keeps I bad (extendFails d p) :=
  bind (h.freeMapRelease p 1) fun _ => pure _

theorem fillIndirect (d : Memory) {idx : Nat} (hidx : bad .indexRange → idx < PTRS_PER_SECTOR)
    (p : Sector) : Keeps I bad (fillIndirect d idx p) :=
  bind (h.blockRead _) fun b => bind (setPtr b hidx p) fun _ => bind (h.blockWrite _ _) fun _ => pure _

theorem extendIndirect (d : Memory) {idx : Nat} (hidx : bad .indexRange → idx < PTRS_PER_SECTOR)
    (p : Sector) : Keeps I bad (extendIndirect d idx p) := by
  refine ite (fun _ => bind (h.freeMapAllocate 1) fun r => ?_) fun _ => h.fillIndirect d hidx p
  cases r with
  | none => exact h.extendFails d p
  | some n => exact bind (h.blockWrite _ _) fun _ => h.fillIndirect _ hidx p

theorem fillInner (d outer : Memory) {o k : Nat} (ho : bad .indexRange → o < PTRS_PER_SECTOR)
    (hk : bad .indexRange → k < PTRS_PER_SECTOR) (p : Sector) :
    Keeps I bad (fillInner d outer o k p) :=
  bind (ptr _ ho) fun _ => bind (h.blockRead _) fun b => bind (setPtr b hk p) fun _ =>
    bind (h.blockWrite _ _) fun _ => pure _

theorem extendInner (d : Memory) {off : Nat}
    (hoff : bad .indexRange → off < PTRS_PER_SECTOR * PTRS_PER_SECTOR) (p : Sector) :
    Keeps I bad (extendInner d off p) := by
  have ho : bad .indexRange → off / PTRS_PER_SECTOR < PTRS_PER_SECTOR :=
    fun hbad => Nat.div_lt_of_lt_mul (hoff hbad)
  have hk : bad .indexRange → off % PTRS_PER_SECTOR < PTRS_PER_SECTOR :=
    fun _ => Nat.mod_lt _ (by decide)
  refine bind (h.blockRead _) fun outer => ite (fun _ => bind (h.freeMapAllocate 1) fun r => ?_)
    fun _ => h.fillInner d outer ho hk p
  cases r with
  | none => exact h.extendFails d p
  | some n =>
    exact bind (h.blockWrite _ _) fun _ => bind (setPtr _ ho _) fun _ =>
      bind (h.blockWrite _ _) fun _ => h.fillInner d _ ho hk p

theorem extendDoubly (d : Memory) {off : Nat}
    (hoff : bad .indexRange → off < PTRS_PER_SECTOR * PTRS_PER_SECTOR) (p : Sector) :
    Keeps I bad (extendDoubly d off p) := by
  refine ite (fun _ => bind (h.freeMapAllocate 1) fun r => ?_) fun _ => h.extendInner d hoff p
  cases r with
  | none => exact h.extendFails d p
  | some n => exact bind (h.blockWrite _ _) fun _ => h.extendInner _ hoff p

theorem extendOne (d : Memory) {i : Nat} (hi : bad .indexRange → i < capacity) :
    Keeps I bad (extendOne d i) := by
  refine bind (h.freeMapAllocate 1) fun r => ?_
  cases r with
  | none => exact pure _
  | some p =>
    rw [capacity] at hi
    refine bind (h.blockWrite _ _) fun _ => ite (fun hdirect => ?_) fun hdirect =>
      ite (fun hindirect => ?_) fun hindirect => ?_
    · exact bind (setDirect d (fun _ => hdirect) p) fun _ => pure _
    · exact h.extendIndirect d (fun _ => by omega) p
    · exact h.extendDoubly d (fun hbad => by have := hi hbad; omega) p

theorem extendLoop (m : Nat) : ∀ (i : Nat) (d : Memory), (bad .indexRange → i + m ≤ capacity) →
    Keeps I bad (extendLoop m i d) := by
  induction m with
  | zero =>
    intro i d _
    exact pure _
  | succ m ih =>
    intro i d hi
    refine bind (h.extendOne d fun hbad => by have := hi hbad; omega) fun r => ?_
    obtain ⟨d', ok⟩ := r
    exact ite (fun _ => ih (i + 1) d' fun hbad => by have := hi hbad; omega) fun _ => pure _

theorem inodeExtend (d : Memory) {newLength : Int}
    (hlen : bad .indexRange → bytesToSectors newLength ≤ capacity) :
    Keeps I bad (inodeExtend d newLength) := by
  refine ite (fun _ => pure _) fun hgrows =>
    bind (h.extendLoop _ _ d fun hbad => by have := hlen hbad; omega) fun r => ?_
  obtain ⟨d', ok⟩ := r
  exact ite (fun _ => pure _) fun _ => pure _

theorem inodeCreate (p : Sector) {len : Int}
    (hlen : bad .indexRange → 0 < len → bytesToSectors len ≤ capacity) :
    Keeps I bad (inodeCreate p len) := by
  refine ite (fun _ => h.throw (by decide)) fun _ => bind h.malloc fun ok => ite (fun _ => ?_)
    fun _ => pure _
  refine ite (fun hpos => ?_) fun _ => bind (h.blockWrite _ _) fun _ => pure _
  refine bind (h.inodeExtend _ fun hbad => hlen hbad hpos) fun r => ?_
  obtain ⟨d, ok⟩ := r
  exact ite (fun _ => bind (h.blockWrite _ _) fun _ => pure _) fun _ => pure _

/-! ## Releasing -/

theorem releasePtrs (b : Memory) (n : Nat) : ∀ i, (bad .indexRange → i + n ≤ PTRS_PER_SECTOR) →
    Keeps I bad (releasePtrs b n i) := by
  induction n with
  | zero =>
    intro i _
    exact pure _
  | succ n ih =>
    intro i hi
    refine bind (ptr b fun hbad => ?_) fun p => bind (h.freeMapRelease p 1) fun _ =>
      ih (i + 1) fun hbad => ?_
    all_goals
      have := hi hbad
      omega

theorem releaseDirect (d : Memory) (n : Nat) : ∀ i, (bad .indexRange → i + n ≤ DIRECT_BLOCKS) →
    Keeps I bad (releaseDirect d n i) := by
  induction n with
  | zero =>
    intro i _
    exact pure _
  | succ n ih =>
    intro i hi
    refine bind (direct d fun hbad => ?_) fun p => bind (h.freeMapRelease p 1) fun _ =>
      ih (i + 1) fun hbad => ?_
    all_goals
      have := hi hbad
      omega

theorem releaseInner (outer : Memory) (n : Nat) : ∀ i remaining,
    (bad .indexRange → i + n ≤ PTRS_PER_SECTOR) →
      Keeps I bad (releaseInner outer n i remaining) := by
  induction n with
  | zero =>
    intro i remaining _
    exact pure _
  | succ n ih =>
    intro i remaining hi
    have hlt : bad .indexRange → i < PTRS_PER_SECTOR := fun hbad => by have := hi hbad; omega
    refine bind (ptr outer hlt) fun p => bind (h.blockRead p) fun inner => ?_
    refine bind (h.releasePtrs inner _ 0 fun _ => ?_) fun _ => ?_
    · split <;> omega
    · exact bind (ptr outer hlt) fun p => bind (h.freeMapRelease p 1) fun _ =>
        ih (i + 1) _ fun hbad => by have := hi hbad; omega

/-- `inode_deallocate` of an inode inside the capacity. -/
theorem inodeDeallocate (hcap : bad .indexRange → bytesToSectors (length d) ≤ capacity) :
    Keeps I bad (inodeDeallocate d) := by
  rw [Fs.inodeDeallocate]
  refine ite (fun _ => pure _) fun _ => bind (h.releaseDirect d _ 0 fun _ => ?_) fun _ => ?_
  · split <;> omega
  refine ite (fun _ => pure _) fun _ => bind ?_ fun _ => ?_
  · refine bind (h.blockRead _) fun b => bind (h.releasePtrs b _ 0 fun _ => ?_) fun _ =>
      h.freeMapRelease _ 1
    split <;> omega
  refine ite (fun _ => pure _) fun _ => ?_
  refine bind (h.blockRead _) fun outer => bind (h.releaseInner outer _ 0 _ fun hbad => ?_) fun _ =>
    h.freeMapRelease _ 1
  have hcap := hcap hbad
  rw [capacity_eq] at hcap
  simp only [DIRECT_BLOCKS, PTRS_PER_SECTOR]
  omega

end Ambient

end Pintos.Fs
