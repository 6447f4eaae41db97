/-
  Pintos.Vm.Outline

  A proof outline for the page fault handlers.  One byte offset is fixed, and
  what memory holds at that offset is seen as a `ByteView`.  Every program
  counter has an assertion (`PcOk`) that holds whenever a process is there, and
  `Base` holds always.  For each kind of change a statement makes there are two
  lemmas: it keeps `Base`, and it does not interfere with the assertions of the
  other processes.

  The point of it: `st` records the byte last stored in each page, and in a
  mapped page that byte is in memory, in one that is not mapped it is where the
  next fault will read it.
-/

import Pintos.Vm.FrameOwners

namespace Pintos.Vm

open Pintos.Base Function

variable {f : Pid → PageNo → UInt8} {used : Nat → Prop}

/-- The page stays in its file when it is evicted. -/
def SupPageTableEntry.fileKind (e : SupPageTableEntry) : Bool :=
  e.mapping.isSome || (!e.writable && e.source == .fileBacked)

/-- Who uses a swap slot: a page that is swapped out, or a process that is
    swapping one out. -/
inductive SlotUser where
  | page (p : Pid) (r : PageNo)
  | evictor (q : Pid)

/-- Memory at one offset of every page. -/
structure ByteView where
  spte : Pid → PageNo → Option SupPageTableEntry
  map : Pid → PageNo → Option Frame
  dirty : Pid → PageNo → Bool
  writable : Pid → PageNo → Bool
  mem : Frame → UInt8
  slot : Nat → UInt8
  used : Nat → Prop
  /-- The byte of the page in its file. -/
  file : Pid → PageNo → UInt8
  /-- The byte last stored in the page. -/
  st : Pid → PageNo → Option UInt8
  own : Nat → Option SlotUser
  /-- The process that is evicting the page and has not cleared its page table
      entry. -/
  rev : Pid → PageNo → Option Pid
  /-- The process that has cleared the page table entry of the page and has
      still to set `is_loaded`. -/
  unl : Pid → PageNo → Option Pid

/-- A function of pages changed at one page. -/
@[grind =] def updPage {α : Type} (f : Pid → PageNo → α) (p : Pid) (r : PageNo) (a : α) :
    Pid → PageNo → α :=
  fun q s => if q = p ∧ s = r then a else f q s

namespace ByteView

variable (v : ByteView)

/-! ## Assertions -/

/-- `p` handles a fault on its page `r`, which is not mapped yet.  The page of
    a fault that found no entry has never been stored to, and belongs to no
    file. -/
@[grind =] def Faulting (p : Pid) (r : PageNo) (existing : Bool) : Prop :=
  (isUserVaddr (r * PGSIZE) = true → v.map p r = none) ∧
    (existing = false → v.st p r = none ∧ ∀ e, v.spte p r = some e → e.fileKind = false)

/-- The page is installed but not yet marked loaded, so nobody evicts it. -/
@[grind =] def Installed (p : Pid) (r : PageNo) : Prop :=
  v.map p r ≠ none ∧ v.rev p r = none ∧ ∃ e, v.spte p r = some e ∧ e.isLoaded = false

@[grind =] def Revoking (q p : Pid) (r : PageNo) : Prop := v.rev p r = some q ∧ v.map p r ≠ none

@[grind =] def FileSide (p : Pid) (r : PageNo) : Prop := ∃ e, v.spte p r = some e ∧ e.fileKind = true

@[grind =] def MappingSide (p : Pid) (r : PageNo) : Prop :=
  ∃ e, v.spte p r = some e ∧ e.mapping.isSome = true

@[grind =] def SwapSide (p : Pid) (r : PageNo) : Prop := ∃ e, v.spte p r = some e ∧ e.fileKind = false

/-- `q` moves the page to slot `i`. -/
@[grind =] def Saving (q p : Pid) (r : PageNo) (i : Nat) : Prop :=
  v.Revoking q p r ∧ v.SwapSide p r ∧ v.own i = some (.evictor q)

/-- The slot has the byte last stored in the page. -/
@[grind =] def Saved (p : Pid) (r : PageNo) (i : Nat) : Prop := ∀ b, v.st p r = some b → v.slot i = b

/-- What holds of the entry of a page that is being loaded again. -/
@[grind =] def Reload (p : Pid) (r : PageNo) (P : UInt8 → SupPageTableEntry → Prop) : Prop :=
  isUserVaddr (r * PGSIZE) = true → ∀ b e, v.st p r = some b → v.spte p r = some e →
    e.isLoaded = false ∧ P b e

/-- The frame `k` is ready to be installed; `reclaimed` is the local of
    `page_fault`. -/
@[grind =] def Ready (p : Pid) (r : PageNo) (existing : Bool) (k : Frame) (reclaimed : Bool) : Prop :=
  v.Faulting p r existing ∧ (v.Reload p r fun b _ => v.mem k = b) ∧
    (reclaimed = true → isUserVaddr (r * PGSIZE) = true →
      ∃ e, v.spte p r = some e ∧ e.isLoaded = false ∧ e.source = .swap)

/-- The assertions of `swap_evict_frame`, run by `q` on the page `r` of `p`. -/
@[grind =] def EvictOk (q p : Pid) (r : PageNo) : EvictPc → Prop
  | .testDirty => v.Revoking q p r
  | .testSource dirty => v.Revoking q p r ∧
      (dirty = false → ∀ b e, v.st p r = some b → v.spte p r = some e →
        e.mapping.isSome = true → v.file p r = b)
  | .writeFile => v.Revoking q p r ∧ v.MappingSide p r
  | .clearFile => v.Revoking q p r ∧ v.FileSide p r ∧ ∀ b, v.st p r = some b → v.file p r = b
  | .unloadFile => v.FileSide p r
  | .setFile => v.FileSide p r
  | .dropSlot => v.FileSide p r
  | .takeSlot => v.Revoking q p r ∧ v.SwapSide p r
  | .copyOut i => v.Saving q p r i
  | .setSlot i => v.Saving q p r i ∧ v.Saved p r i
  | .unloadSwap i => v.Saving q p r i ∧ v.Saved p r i ∧
      ∀ e, v.spte p r = some e → e.swapSlotIndex = some i
  | .setSwap i => v.Saving q p r i ∧ v.Saved p r i ∧
      ∀ e, v.spte p r = some e → e.swapSlotIndex = some i ∧
        (v.st p r ≠ none → e.isLoaded = false)
  | .clearSwap i => v.Saving q p r i ∧ v.Saved p r i ∧
      ∀ e, v.spte p r = some e → e.swapSlotIndex = some i ∧ e.source = .swap ∧
        (v.st p r ≠ none → e.isLoaded = false)
  | .reinsert => v.Revoking q p r
  | .done => True

/-- The assertions of `page_fault`, run by `p` on its page `r` with frame `k`. -/
@[grind =] def FillOk (p : Pid) (r : PageNo) (existing : Bool) (k : Frame) : FillPc → Prop
  | .newEntry => v.Faulting p r existing ∧ existing = false
  | .testFile => v.Faulting p r existing
  | .readFile => v.Faulting p r existing ∧ v.Reload p r fun _ e => e.source = .fileBacked
  | .testSwap => v.Faulting p r existing ∧
      v.Reload p r fun b e => e.source = .fileBacked → v.mem k = b
  | .reclaim => v.Faulting p r existing ∧ v.Reload p r fun _ e => e.source = .swap
  | .setReclaimed => v.Faulting p r existing ∧ v.Reload p r fun b _ => v.mem k = b
  | .setAux reclaimed => v.Ready p r existing k reclaimed
  | .install reclaimed => v.Ready p r existing k reclaimed
  | .freeSlot => v.Installed p r ∧ ∀ e, v.spte p r = some e → e.source = .swap ∧
      ∀ i, e.swapSlotIndex = some i → v.own i = some (.page p r)
  | .forgetSlot => v.Installed p r
  | .backToFile => v.Installed p r
  -- a page without an entry is marked loaded from the start, and may be evicted
  -- before its owner gets here; it has not been stored to
  | .setLoaded => v.st p r ≠ none → v.Installed p r
  | .removeFte removeSpte => v.Faulting p r existing ∧
      (removeSpte = true → existing = false ∧ isUserVaddr (r * PGSIZE) = true)
  | .removeSpte => v.Faulting p r existing ∧ existing = false ∧ isUserVaddr (r * PGSIZE) = true
  | .freePage => True

def PcOk (q : Pid) : Pc → Prop
  | .user => True
  | .find f => f.notPresent = true → isUserVaddr f.faultAddr = true →
      v.map q (f.faultAddr / PGSIZE) = none
  | .getPage r existing => v.Faulting q r existing
  | .popLru r existing => v.Faulting q r existing
  | .evict r existing fte vpage pc => v.Faulting q r existing ∧ v.EvictOk q fte.owner vpage pc
  | .add r existing _ => v.Faulting q r existing
  | .fill r existing k pc => v.FillOk q r existing k pc

/-- What holds at all times. -/
structure Base : Prop where
  kind : ∀ p r e, v.spte p r = some e → e.mapping.isSome = true → e.source = .fileBacked
  entry : ∀ p r, v.map p r ≠ none →
    ∃ e, v.spte p r = some e ∧ (v.writable p r = true → e.writable = true)
  used : ∀ i, v.own i ≠ none → v.used i
  swapped : ∀ p r e i, v.spte p r = some e → e.isLoaded = false → e.source = .swap →
    e.swapSlotIndex = some i → v.map p r = none → v.own i = some (.page p r)
  revMap : ∀ p r, v.rev p r ≠ none → v.map p r ≠ none
  stored : ∀ p r, v.st p r ≠ none → ∃ e, v.spte p r = some e ∧ e.writable = true
  mapped : ∀ p r k b, v.map p r = some k → v.st p r = some b → v.mem k = b
  clean : ∀ p r b e, v.map p r ≠ none → v.st p r = some b → v.spte p r = some e →
    e.mapping.isSome = true → v.dirty p r = false → v.file p r = b
  backed : ∀ p r b e, v.map p r = none → v.st p r = some b → v.spte p r = some e →
    (e.mapping.isSome = true → v.file p r = b) ∧
      (e.mapping.isSome = false →
        e.source = .swap ∧ ∃ i, e.swapSlotIndex = some i ∧ v.slot i = b)
  loaded : ∀ p r e, v.st p r ≠ none → v.spte p r = some e → e.isLoaded = true →
    v.map p r = none → v.unl p r ≠ none
  unlFile : ∀ p r, v.unl p r ≠ none → ∃ e, v.spte p r = some e ∧ e.fileKind = true

/-- The processes that `rev` and `unl` name are where these say. -/
structure Links (pc : Pid → Pc) : Prop where
  rev : ∀ p r q, v.rev p r = some q → ∃ k, (pc q).role = .revoking (p, r) k
  unl : ∀ p r q, v.unl p r = some q →
    ∃ page existing fte, pc q = .evict page existing fte r .unloadFile ∧ fte.owner = p

/-- The invariant of the interleaved handlers. -/
structure Inv (pc : Pid → Pc) : Prop where
  base : v.Base
  links : v.Links pc
  pcs : ∀ q, v.PcOk q (pc q)

variable {v} {v' : ByteView} {pc : Pid → Pc} {q p : Pid} {r : PageNo} {c : Pc}

/-- A step of `q`: it establishes its next assertion and does not interfere
    with the others. -/
theorem Inv.step (h : v.Inv pc) (hbase : v'.Base) (hlinks : v'.Links (update pc q c))
    (hothers : ∀ q', q' ≠ q → v.PcOk q' (pc q') → v'.PcOk q' (pc q')) (hc : v'.PcOk q c) :
    v'.Inv (update pc q c) := by
  refine ⟨hbase, hlinks, fun q' => ?_⟩
  by_cases hq : q' = q
  · subst hq
    rwa [update_self]
  · rw [update_of_ne hq]
    exact hothers q' hq (h.pcs q')

/-- Assertions about the pages, frames and slots a change does not concern
    survive it: it is enough to look at the parts they are made of. -/
theorem PcOk.imp (h : v.PcOk q c) (hmap : ∀ s, v.map q s = none → v'.map q s = none)
    (hfault : ∀ s existing, v.Faulting q s existing → v'.Faulting q s existing)
    (hevict : ∀ s existing fte vpage pc, c = .evict s existing fte vpage pc →
      v.EvictOk q fte.owner vpage pc → v'.EvictOk q fte.owner vpage pc)
    (hfill : ∀ s existing k pc, c = .fill s existing k pc → v.FillOk q s existing k pc →
      v'.FillOk q s existing k pc) :
    v'.PcOk q c := by
  cases c with
  | user => trivial
  | find f => exact fun hp hu => hmap _ (h hp hu)
  | getPage s existing => exact hfault s existing h
  | popLru s existing => exact hfault s existing h
  | evict s existing fte vpage pc => exact ⟨hfault s existing h.1, hevict _ _ _ _ pc rfl h.2⟩
  | add s existing k => exact hfault s existing h
  | fill s existing k pc => exact hfill s existing k pc rfl h

/-! ## Entries

Assignments to the fields of a supplemental entry. -/

section

variable {e e' : SupPageTableEntry} {i : Nat} {q' : Pid}

/-- The entry of a mapped page may change in any way that keeps its kind. -/
theorem Base.setEntry (hb : v.Base) (hs : v.spte p r = some e) (hm : v.map p r ≠ none)
    (hmapping : e'.mapping = e.mapping) (hwritable : e'.writable = e.writable)
    (hkind : e'.fileKind = e.fileKind)
    (hsource : e.mapping.isSome = true → e'.source = .fileBacked) :
    Base { v with spte := updPage v.spte p r (some e') } := by
  cases hb
  constructor <;> grind -linarith

/-- Nobody but the evictor of a page, and its owner while there is no evictor,
    asserts anything about its entry but its kind. -/
theorem PcOk.setEntry (hs : v.spte p r = some e) (hkind : e'.fileKind = e.fileKind)
    (hrev : v.rev p r ≠ some q') (howner : q' ≠ p ∨ v.map p r ≠ none ∧ v.rev p r ≠ none)
    (h : v.PcOk q' c) :
    PcOk { v with spte := updPage v.spte p r (some e') } q' c := by
  refine h.imp (fun _ => id) ?_ ?_ ?_
  · intro s existing h
    grind -linarith
  · intro _ _ fte s pc _ h
    cases pc <;> first | exact h | grind -linarith
  · intro s existing k pc _ h
    cases pc <;> first | exact h | grind -linarith

/-- An evictor is done with a file page except for its entry. -/
theorem Base.setEntry_file (hb : v.Base) (hs : v.spte p r = some e) (hk : e.fileKind = true)
    (hmapping : e'.mapping = e.mapping) (hwritable : e'.writable = e.writable)
    (hsource : e'.source = e.source) (hload : e'.isLoaded = true → e.isLoaded = true) :
    Base { v with spte := updPage v.spte p r (some e') } := by
  have hfile : e.source = .fileBacked := by
    have := hb.kind p r e hs
    grind -linarith [SupPageTableEntry.fileKind]
  cases hb
  constructor <;> grind -linarith [SupPageTableEntry.fileKind]

theorem PcOk.setEntry_file (hs : v.spte p r = some e) (hk : e.fileKind = true)
    (hmapping : e'.mapping = e.mapping) (hwritable : e'.writable = e.writable)
    (hsource : e'.source = e.source) (hload : e'.isLoaded = true → e.isLoaded = true)
    (hslot : e'.swapSlotIndex = e.swapSlotIndex ∨ e'.swapSlotIndex = none) (h : v.PcOk q c) :
    PcOk { v with spte := updPage v.spte p r (some e') } q c := by
  have hkind : e'.fileKind = e.fileKind := by
    simp only [SupPageTableEntry.fileKind, hmapping, hwritable, hsource]
  refine h.imp (fun _ => id) ?_ ?_ ?_
  · intro s existing h
    grind -linarith
  · intro _ _ fte s pc _ h
    cases pc <;> first | exact h | grind -linarith
  · intro s existing k pc _ h
    cases pc <;> first | exact h | grind -linarith

/-- A page that has not been stored to is marked loaded. -/
theorem Base.setLoaded (hb : v.Base) (hs : v.spte p r = some e) (hst : v.st p r = none) :
    Base { v with spte := updPage v.spte p r (some { e with isLoaded := true }) } := by
  have hkind : { e with isLoaded := true }.fileKind = e.fileKind := rfl
  cases hb
  constructor <;> grind -linarith

theorem PcOk.setLoaded (hs : v.spte p r = some e) (hst : v.st p r = none) (hq : q' ≠ p)
    (h : v.PcOk q' c) :
    PcOk { v with spte := updPage v.spte p r (some { e with isLoaded := true }) } q' c := by
  have hkind : { e with isLoaded := true }.fileKind = e.fileKind := rfl
  refine h.imp (fun _ => id) ?_ ?_ ?_
  · intro s existing h
    grind -linarith
  · intro _ _ fte s pc _ h
    cases pc <;> first | exact h | grind -linarith
  · intro s existing k pc _ h
    cases pc <;> first | exact h | grind -linarith

/-- The entry of a page that is not mapped and was never stored to is made or
    removed. -/
theorem Base.setAbsent {o : Option SupPageTableEntry} (hb : v.Base)
    (hst : v.st p r = none) (hm : v.map p r = none)
    (hk : ∀ e, v.spte p r = some e → e.fileKind = false)
    (ho : ∀ e, o = some e → e.isLoaded = true ∧ e.mapping = none)
    (hf : ∀ q s, ¬ (q = p ∧ s = r) → f q s = v.file q s) :
    Base { v with spte := updPage v.spte p r o, file := f } := by
  cases hb
  constructor <;> grind -linarith

theorem PcOk.setAbsent {o : Option SupPageTableEntry}
    (hm : v.map p r = none) (hk : ∀ e, v.spte p r = some e → e.fileKind = false) (hq : q' ≠ p)
    (hf : ∀ q s, ¬ (q = p ∧ s = r) → f q s = v.file q s) (h : v.PcOk q' c) :
    PcOk { v with spte := updPage v.spte p r o, file := f } q' c := by
  refine h.imp (fun _ => id) ?_ ?_ ?_
  · intro s existing h
    grind -linarith
  · intro _ _ fte s pc _ h
    cases pc <;> first | exact h | grind -linarith
  · intro s existing k pc _ h
    cases pc <;> first | exact h | grind -linarith

end

/-! ## Mapping and unmapping -/

section

variable {k : Frame} {e : SupPageTableEntry} {i : Nat} {q' : Pid}

/-- `pagedir_clear_page` in the file branch. -/
theorem Base.clearFile (hb : v.Base) (hok : v.EvictOk q p r .clearFile) :
    Base { v with
      map := updPage v.map p r none
      rev := updPage v.rev p r none
      unl := updPage v.unl p r (some q) } := by
  cases hb
  constructor <;> grind -linarith [SupPageTableEntry.fileKind]

/-- `pagedir_clear_page` in the swap branch: the slot is now the page's. -/
theorem Base.clearSwap (hb : v.Base) (hok : v.EvictOk q p r (.clearSwap i)) :
    Base { v with
      map := updPage v.map p r none
      rev := updPage v.rev p r none
      own := update v.own i (some (.page p r)) } := by
  cases hb
  constructor <;> simp only [update_apply] <;> grind -linarith [SupPageTableEntry.fileKind]

/-- Clearing the page table entry of a page concerns only its evictor. -/
theorem PcOk.clear {u : Pid → PageNo → Option Pid} (hq : q' ≠ q) (hr : v.Revoking q p r)
    (h : v.PcOk q' c) :
    PcOk { v with map := updPage v.map p r none, rev := updPage v.rev p r none, unl := u } q' c := by
  refine h.imp ?_ ?_ ?_ ?_
  · intro s h
    grind -linarith
  · intro s existing h
    grind -linarith
  · intro _ _ fte s pc _ h
    cases pc <;> first | exact h | grind -linarith
  · intro s existing k pc _ h
    cases pc <;> first | exact h | grind -linarith

/-- `install_page`. -/
theorem Base.install {reclaimed existing : Bool} (hb : v.Base)
    (hok : v.Ready p r existing k reclaimed) (huser : isUserVaddr (r * PGSIZE) = true)
    (hs : v.spte p r = some e) :
    Base { v with
      map := updPage v.map p r (some k)
      dirty := updPage v.dirty p r false
      writable := updPage v.writable p r e.writable } := by
  cases hb
  constructor <;> grind -linarith

theorem PcOk.install {d w : Pid → PageNo → Bool} (hq : q' ≠ p) (h : v.PcOk q' c) :
    PcOk { v with map := updPage v.map p r (some k), dirty := d, writable := w } q' c := by
  refine h.imp ?_ ?_ ?_ ?_
  · intro s h
    grind -linarith
  · intro s existing h
    grind -linarith
  · intro _ _ fte s pc _ h
    cases pc <;> first | exact h | grind -linarith
  · intro s existing k pc _ h
    cases pc <;> first | exact h | grind -linarith

/-- `frame_table_pop_lru`: a mapped page that nobody evicts gets an evictor. -/
theorem Base.pop (hb : v.Base) (hm : v.map p r ≠ none) :
    Base { v with rev := updPage v.rev p r (some q) } := by
  refine { hb with revMap := fun p' r' h => ?_ }
  simp only [updPage] at h
  split at h
  · rename_i heq
    rw [heq.1, heq.2]
    exact hm
  · exact hb.revMap p' r' h

/-- A page that is marked loaded is not one its owner is still installing. -/
theorem PcOk.pop (hrev : v.rev p r = none) (hs : v.spte p r = some e) (hl : e.isLoaded = true)
    (h : v.PcOk q' c) : PcOk { v with rev := updPage v.rev p r (some q) } q' c := by
  refine h.imp (fun _ => id) (fun _ _ => id) ?_ ?_
  · intro _ _ fte s pc _ h
    cases pc <;> first | exact h | grind -linarith
  · intro s existing k pc hc h
    cases pc <;> first | exact h | grind -linarith

/-- `frame_table_insert` of a victim that could not be evicted. -/
theorem Base.reinsert (hb : v.Base) : Base { v with rev := updPage v.rev p r none } := by
  refine { hb with revMap := fun p' r' h => hb.revMap p' r' ?_ }
  simp only [updPage] at h
  split at h
  · exact absurd rfl h
  · exact h

theorem PcOk.reinsert (hq : q' ≠ q) (hr : v.Revoking q p r) (h : v.PcOk q' c) :
    PcOk { v with rev := updPage v.rev p r none } q' c := by
  refine h.imp (fun _ => id) (fun _ _ => id) ?_ ?_
  · intro _ _ fte s pc _ h
    cases pc <;> first | exact h | grind -linarith
  · intro s existing k pc hc h
    cases pc <;> first | exact h | grind -linarith

end

/-! ## Memory, slots and files -/

section

variable {k : Frame} {e : SupPageTableEntry} {i : Nat} {q' : Pid} {b : UInt8}

/-- A frame that is mapped nowhere is written. -/
theorem Base.writeMem (hb : v.Base) (hk : ∀ p r, v.map p r ≠ some k) :
    Base { v with mem := update v.mem k b } := by
  refine { hb with mapped := fun p r k' b' hm hst => ?_ }
  have hne : k' ≠ k := by
    rintro rfl
    exact hk p r hm
  show update v.mem k b k' = b'
  rw [update_of_ne hne]
  exact hb.mapped p r k' b' hm hst

theorem PcOk.writeMem (hk : c.role ≠ .listed k) (h : v.PcOk q' c) :
    PcOk { v with mem := update v.mem k b } q' c := by
  refine h.imp (fun _ => id) (fun _ _ => id) (fun _ _ _ _ _ _ => id) ?_
  intro s existing k' pc hc h
  subst hc
  by_cases hne : k' = k
  · subst hne
    cases pc <;> first | exact h | exact absurd rfl hk
  · cases pc <;>
      first
        | exact h
        | simp only [FillOk, Reload, Ready, update_apply, if_neg hne] at h ⊢
          exact h

/-- What was stored in a page that is swapped out is in the page's slot. -/
theorem Base.slot_own (hb : v.Base) (hm : v.map p r = none) (hst : v.st p r = some b)
    (hs : v.spte p r = some e) (hmapping : e.mapping.isSome = false) :
    e.source = .swap ∧ ∃ i, e.swapSlotIndex = some i ∧ v.slot i = b ∧
      v.own i = some (.page p r) := by
  obtain ⟨hsource, i, hi, hslot⟩ := (hb.backed p r b e hm hst hs).2 hmapping
  refine ⟨hsource, i, hi, hslot, hb.swapped p r e i hs ?_ hsource hi hm⟩
  -- marked loaded it would be a page of a file
  by_contra hload
  obtain ⟨e', he', hkind⟩ := hb.unlFile p r
    (hb.loaded p r e (by simp [hst]) hs (by simpa using hload) hm)
  rw [hs] at he'
  cases he'
  simp [SupPageTableEntry.fileKind, hsource, hmapping] at hkind

/-- `write_to_block` of a slot that the evictor has taken. -/
theorem Base.copyOut (hb : v.Base) (hown : v.own i = some (.evictor q)) :
    Base { v with slot := update v.slot i b } := by
  refine { hb with backed := fun p r b' e hm hst hs => ⟨(hb.backed p r b' e hm hst hs).1, ?_⟩ }
  intro hmapping
  obtain ⟨hsource, j, hj, hslot, hpage⟩ := hb.slot_own hm hst hs hmapping
  have hne : j ≠ i := by
    rintro rfl
    rw [hown] at hpage
    cases hpage
  refine ⟨hsource, j, hj, ?_⟩
  show update v.slot i b j = b'
  rw [update_of_ne hne, hslot]

theorem PcOk.copyOut (hq : q' ≠ q) (hown : v.own i = some (.evictor q)) (h : v.PcOk q' c) :
    PcOk { v with slot := update v.slot i b } q' c := by
  refine h.imp (fun _ => id) (fun _ _ => id) ?_ ?_
  · intro _ _ fte s pc _ h
    cases pc <;> first | exact h | grind -linarith
  · intro s existing k pc _ h
    cases pc <;> exact h

/-- `bitmap_scan_and_flip` finds a slot nobody uses. -/
theorem Base.takeSlot (hb : v.Base) (hfree : ¬ v.used i) (hused : ∀ j, used j ↔ j = i ∨ v.used j) :
    Base { v with used := used, own := update v.own i (some (.evictor q)) } := by
  have hnone : v.own i = none := by
    by_contra h
    exact hfree (hb.used i h)
  have huse := hb.used
  have hswapped := hb.swapped
  refine { hb with used := ?_, swapped := ?_ } <;> simp only [update_apply] <;> grind -linarith

/-- `swap_free_slot` of the slot of a page that is mapped again. -/
theorem Base.freeSlot (hb : v.Base) (hown : v.own i = some (.page p r))
    (hm : v.map p r ≠ none) (hused : ∀ j, used j ↔ j ≠ i ∧ v.used j) :
    Base { v with used := used, own := update v.own i none } := by
  have huse := hb.used
  have hswapped := hb.swapped
  refine { hb with used := ?_, swapped := ?_ } <;> simp only [update_apply] <;> grind -linarith

/-- A slot changes hands. -/
theorem PcOk.setOwn {o : Option SlotUser}
    (hown : v.own i ≠ some (.evictor q')) (hpage : ∀ s, v.own i ≠ some (.page q' s))
    (h : v.PcOk q' c) :
    PcOk { v with used := used, own := update v.own i o } q' c := by
  refine h.imp (fun _ => id) (fun _ _ => id) ?_ ?_
  · intro _ _ fte s pc _ h
    cases pc <;> first | exact h | grind -linarith
  · intro s existing k pc _ h
    cases pc <;> first | exact h | grind -linarith

/-- `file_write_at`: what was stored in the page is now in the file, and the
    other pages that were stored to keep their bytes. -/
theorem Base.writeFile (hb : v.Base) (hself : ∀ b, v.st p r = some b → f p r = b)
    (hother : ∀ q s, ¬ (q = p ∧ s = r) → v.st q s ≠ none →
      (∀ e, v.spte q s = some e → e.mapping.isSome = true → f q s = v.file q s)) :
    Base { v with file := f } := by
  have hclean := hb.clean
  have hbacked := hb.backed
  refine { hb with clean := ?_, backed := ?_ } <;> grind -linarith

theorem PcOk.writeFile (hq : q' ≠ q) (hr : v.Revoking q p r)
    (hst : ∀ p r, v.st p r ≠ none → ∃ e, v.spte p r = some e ∧ e.writable = true)
    (hother : ∀ q s, ¬ (q = p ∧ s = r) → v.st q s ≠ none →
      (∀ e, v.spte q s = some e → e.mapping.isSome = true → f q s = v.file q s))
    (h : v.PcOk q' c) : PcOk { v with file := f } q' c := by
  refine h.imp (fun _ => id) (fun _ _ => id) ?_ ?_
  · intro _ _ fte s pc _ h
    cases pc <;> first | exact h | grind -linarith [SupPageTableEntry.fileKind]
  · intro s existing k pc _ h
    cases pc <;> exact h

/-- The evictor has taken the copy of the page that it keeps, or decided that
    the file has it: what is stored in the page from now on is lost. -/
def copied (mapping : Bool) : EvictPc → Bool
  | .testSource dirty => mapping && !dirty
  | .clearFile => true
  | .setSlot _ => true
  | .unloadSwap _ => true
  | .setSwap _ => true
  | .clearSwap _ => true
  | _ => false

/-- A store. -/
theorem Base.store (hb : v.Base) (hinj : ∀ q s, v.map q s = some k → q = p ∧ s = r)
    (hm : v.map p r = some k) (hw : v.writable p r = true) :
    Base { v with
      mem := update v.mem k b
      dirty := updPage v.dirty p r true
      st := updPage v.st p r (some b) } := by
  obtain ⟨e, he, hew⟩ := hb.entry p r (by simp [hm])
  have hstored := hb.stored
  have hmapped := hb.mapped
  have hclean := hb.clean
  have hbacked := hb.backed
  have hloaded := hb.loaded
  refine { hb with stored := ?_, mapped := ?_, clean := ?_, backed := ?_, loaded := ?_ } <;>
    simp only [updPage, update_apply] <;> grind -linarith

theorem PcOk.store {d : Pid → PageNo → Bool} (hq : q' ≠ p)
    (hcopied : ∀ s existing fte pc e, c = .evict s existing fte r pc → fte.owner = p →
      v.spte p r = some e → copied e.mapping.isSome pc = false)
    (hk : c.role ≠ .listed k) (h : v.PcOk q' c) :
    PcOk { v with
      mem := update v.mem k b
      dirty := d
      st := updPage v.st p r (some b) } q' c := by
  refine h.imp (fun _ => id) ?_ ?_ ?_
  · intro s existing h
    grind -linarith
  · intro s existing fte vpage pc hc h
    by_cases hpage : fte.owner = p ∧ vpage = r
    · obtain ⟨rfl, rfl⟩ := hpage
      have hcopied := fun e => hcopied s existing fte pc e hc rfl
      cases pc <;>
        first
          | exact h
          | simp only [EvictOk, FileSide, SwapSide, Saving, Saved, Revoking, updPage, copied] at *
            grind -linarith
    · cases pc <;>
        first
          | exact h
          | simp only [EvictOk, FileSide, SwapSide, Saving, Saved, Revoking, updPage,
              if_neg hpage] at h ⊢
            exact h
  · intro s existing k' pc hc h
    have hpage : ¬ (q' = p ∧ s = r) := fun heq => hq heq.1
    subst hc
    by_cases hne : k' = k
    · subst hne
      cases pc <;>
        first
          | exact h
          | exact absurd rfl hk
          | simp only [FillOk, Faulting, Installed, updPage, if_neg hpage] at h ⊢
            exact h
    · cases pc <;>
        first
          | exact h
          | simp only [FillOk, Faulting, Reload, Installed, Ready, updPage, update_apply,
              if_neg hne, if_neg hpage] at h ⊢
            exact h

end

end ByteView

end Pintos.Vm
