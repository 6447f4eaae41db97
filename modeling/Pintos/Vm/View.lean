/-
  Pintos.Vm.View

  The machine of `Pintos.Vm.Statements` seen through the proof outline of
  `Pintos.Vm.Outline`: the `ByteView` of a state at one offset, and how the
  changes the statements make show in it.  What the outline says about the
  bytes of files needs that no handler makes a mapping.
-/

import Pintos.Vm.OutlineSteps

namespace Pintos.Vm

open Pintos.Base Pintos.Lib Function

/-- The byte last stored at each page and offset. -/
abbrev Stored := Pid → PageNo → Nat → Option UInt8

/-- The parts of the view that are not in memory. -/
structure Ghost where
  own : Nat → Option SlotUser
  rev : Pid → PageNo → Option Pid
  unl : Pid → PageNo → Option Pid

/-- The byte of a page in the file its entry names. -/
def fileByte (s : State) (off : Nat) (p : Pid) (r : PageNo) : UInt8 :=
  match s.spte p r with
  | some e => filePage s e off
  | none => 0

/-- Memory at one offset. -/
def view (s : State) (st : Stored) (g : Ghost) (off : Nat) : ByteView where
  spte := s.spte
  map := pagedirGetPage s
  dirty := pagedirIsDirty s
  writable p r := (s.pte p r).writable
  mem k := s.mem k off
  slot i := slotData s i off
  used := SlotUsed s
  file := fileByte s off
  st p r := st p r off
  own := g.own
  rev := g.rev
  unl := g.unl

section

variable {s s' : State} {st : Stored} {g : Ghost} {off : Nat} {p : Pid} {r : PageNo}
  {e e' : SupPageTableEntry} {k : Frame}

/-! ## How the statements change the view -/

/-- Statements that change neither entries, page tables nor data. -/
theorem view_congr (hspte : s'.spte = s.spte) (hpte : s'.pte = s.pte) (hmem : s'.mem = s.mem)
    (hslots : s'.swapSlots = s.swapSlots) (hblock : s'.swapBlock = s.swapBlock)
    (hfiles : s'.files = s.files) : view s' st g off = view s st g off := by
  have hmap : pagedirGetPage s' = pagedirGetPage s := by
    funext q t
    simp only [pagedirGetPage, hpte]
  have hdirty : pagedirIsDirty s' = pagedirIsDirty s := by
    funext q t
    simp only [pagedirIsDirty, hpte]
  have hused : SlotUsed s' = SlotUsed s := by
    funext i
    simp only [SlotUsed, hslots]
  have hfile : fileByte s' off = fileByte s off := by
    funext q t
    simp only [fileByte, hspte, filePage, hfiles]
  simp only [view, hspte, hmap, hdirty, hpte, hmem, slotData, hblock, hused, hfile]

theorem view_exit : view (Vm.exit s p) st g off = view s st g off := by
  refine view_congr ?_ ?_ rfl rfl rfl rfl
  · funext q t
    rw [Vm.exit, State.spte_setPhase]
  · funext q t
    rw [Vm.exit, State.pte_setPhase]

/-- The entry of a page is set; its page table entry and data stay. -/
theorem view_setSpte (o : Option SupPageTableEntry) :
    view (s.setSpte p r o) st g off =
      { view s st g off with
        spte := updPage (view s st g off).spte p r o
        file := fileByte (s.setSpte p r o) off } := by
  have hspte : (s.setSpte p r o).spte = updPage s.spte p r o := by
    funext q t
    rw [State.spte_setSpte, updPage]
  have hpte : (s.setSpte p r o).pte = s.pte := by
    funext q t
    rw [State.pte_setSpte]
  have hmap : pagedirGetPage (s.setSpte p r o) = pagedirGetPage s := by
    funext q t
    simp only [pagedirGetPage, hpte]
  have hdirty : pagedirIsDirty (s.setSpte p r o) = pagedirIsDirty s := by
    funext q t
    simp only [pagedirIsDirty, hpte]
  simp only [view, hspte, hmap, hdirty, hpte]
  rfl

theorem fileByte_setSpte_of_ne {o : Option SupPageTableEntry} {q : Pid} {t : PageNo}
    (hne : ¬ (q = p ∧ t = r)) : fileByte (s.setSpte p r o) off q t = fileByte s off q t := by
  simp only [fileByte, State.spte_setSpte, if_neg hne]
  rfl

/-- A field of an entry is assigned to that does not say where the page is in
    its file. -/
theorem view_setEntry (hs : s.spte p r = some e) (hfile : e'.file = e.file)
    (hofs : e'.ofs = e.ofs) (hread : e'.readBytes = e.readBytes) :
    view (s.setSpte p r (some e')) st g off =
      { view s st g off with spte := updPage (view s st g off).spte p r (some e') } := by
  have hbyte : fileByte (s.setSpte p r (some e')) off = fileByte s off := by
    funext q t
    by_cases hqt : q = p ∧ t = r
    · obtain ⟨rfl, rfl⟩ := hqt
      simp only [fileByte, State.spte_setSpte, and_self, if_true, hs, filePage, hfile, hofs, hread]
      rfl
    · exact fileByte_setSpte_of_ne hqt
  rw [view_setSpte, hbyte]
  rfl

/-- The page table entry of a page is set. -/
theorem view_setPte (t : Pte) :
    view (s.setPte p r t) st g off =
      { view s st g off with
        map := updPage (view s st g off).map p r (if t.present then some t.frame else none)
        dirty := updPage (view s st g off).dirty p r t.dirty
        writable := updPage (view s st g off).writable p r t.writable } := by
  have hspte : (s.setPte p r t).spte = s.spte := by
    funext q t
    rw [State.spte_setPte]
  have hmap : pagedirGetPage (s.setPte p r t) =
      updPage (pagedirGetPage s) p r (if t.present then some t.frame else none) := by
    funext q u
    simp only [pagedirGetPage, State.pte_setPte, updPage]
    split <;> rfl
  have hdirty : pagedirIsDirty (s.setPte p r t) = updPage (pagedirIsDirty s) p r t.dirty := by
    funext q u
    simp only [pagedirIsDirty, State.pte_setPte, updPage]
    split <;> rfl
  have hwritable : (fun q u => ((s.setPte p r t).pte q u).writable) =
      updPage (fun q u => (s.pte q u).writable) p r t.writable := by
    funext q u
    simp only [State.pte_setPte, updPage]
    split <;> rfl
  have hfile : fileByte (s.setPte p r t) off = fileByte s off := by
    funext q u
    simp only [fileByte, hspte]
    rfl
  simp only [view, hspte, hmap, hdirty, hwritable, hfile]
  rfl

theorem updPage_eq_self {α : Type} (f : Pid → PageNo → α) (p : Pid) (r : PageNo) :
    updPage f p r (f p r) = f := by
  funext q t
  simp only [updPage]
  split
  · rename_i h
    rw [h.1, h.2]
  · rfl

/-- `pagedir_clear_page` of a present page. -/
theorem view_clear (hp : pagedirGetPage s p r ≠ none) :
    view (pagedirClearPage s p r) st g off =
      { view s st g off with map := updPage (view s st g off).map p r none } := by
  have hpresent : (s.pte p r).present = true := by
    by_contra h
    simp [pagedirGetPage, h] at hp
  rw [pagedirClearPage, if_pos hpresent, view_setPte]
  have hdirty := updPage_eq_self (view s st g off).dirty p r
  have hwritable := updPage_eq_self (view s st g off).writable p r
  simp only [view, pagedirIsDirty] at hdirty hwritable ⊢
  simp [hdirty, hwritable]

theorem view_setMem (d : PageData) :
    view (s.setMem k d) st g off =
      { view s st g off with mem := update (view s st g off).mem k (d off) } := by
  have hmem : (fun j => (s.setMem k d).mem j off) =
      update (fun j => s.mem j off) k (d off) := by
    funext j
    simp only [State.setMem, update_apply]
    split <;> rfl
  simp only [view, hmem]
  rfl

theorem view_setSwapSlots (b : List Bool) :
    view (s.setSwapSlots b) st g off =
      { view s st g off with used := fun i => b[i]? = some true } := by
  have hused : SlotUsed (s.setSwapSlots b) = fun i => b[i]? = some true := by
    funext i
    simp [SlotUsed, State.setSwapSlots]
  simp only [view, hused]
  rfl

theorem view_writeToBlock {i : Nat} (d : PageData) (hoff : off < PGSIZE) :
    view (writeToBlock s i d) st g off =
      { view s st g off with slot := update (view s st g off).slot i (d off) } := by
  have hslot : (fun j => slotData (writeToBlock s i d) j off) =
      update (fun j => slotData s j off) i (d off) := by
    funext j
    rw [slotData_writeToBlock s i j d hoff, update_apply]
  simp only [view, hslot]
  rfl

theorem view_setFile (f : FileId) (x : File) :
    view (s.setFile f x) st g off =
      { view s st g off with file := fileByte (s.setFile f x) off } := rfl

end

/-! ## Mappings

The handlers never make a mapping, and never change which part of its file a
page of a mapping has. -/

/-- The fields of an entry that say where the page is in the file of its
    mapping. -/
structure SamePlace (e e' : SupPageTableEntry) : Prop where
  mapping : e'.mapping = e.mapping
  file : e'.file = e.file
  ofs : e'.ofs = e.ofs
  readBytes : e'.readBytes = e.readBytes
  zeroBytes : e'.zeroBytes = e.zeroBytes

/-- The pages of mappings in `s'` are pages of the same mappings in `s`. -/
def MappingsFrom (s s' : State) : Prop :=
  ∀ p r e', s'.spte p r = some e' → e'.mapping.isSome = true →
    ∃ e, s.spte p r = some e ∧ SamePlace e e'

section

variable {s s' s'' : State} {p : Pid} {r : PageNo} {e e' : SupPageTableEntry}

theorem MappingsFrom.of_eq (h : ∀ p r, s'.spte p r = s.spte p r) : MappingsFrom s s' := by
  intro p r e' he' _
  exact ⟨e', by rwa [← h p r], rfl, rfl, rfl, rfl, rfl⟩

theorem MappingsFrom.exit (h : MappingsFrom s s') : MappingsFrom s (Vm.exit s' p) := by
  intro q t e' he' hm
  rw [Vm.exit, State.spte_setPhase] at he'
  exact h q t e' he' hm

/-- An entry is assigned to, made or removed. -/
theorem MappingsFrom.setSpte {o : Option SupPageTableEntry}
    (h : ∀ e', o = some e' → e'.mapping.isSome = true →
      ∃ e, s.spte p r = some e ∧ SamePlace e e') :
    MappingsFrom s (s.setSpte p r o) := by
  intro q t e' he' hm
  rw [State.spte_setSpte] at he'
  split at he'
  · rename_i hqt
    rw [hqt.1, hqt.2]
    exact h e' he' hm
  · exact ⟨e', he', rfl, rfl, rfl, rfl, rfl⟩

theorem MappingsFrom.setEntry (hs : s.spte p r = some e) (he : SamePlace e e') :
    MappingsFrom s (s.setSpte p r (some e')) := by
  refine .setSpte ?_
  rintro _ ⟨⟩ -
  exact ⟨e, hs, he⟩

theorem MappingsFrom.of_evictStep {fte : FrameTableEntry} {vpage : PageNo} {grow : Bool}
    {pc : EvictPc} {n : EvictNext} (h : evictStep s fte vpage grow pc = some (s', n)) :
    MappingsFrom s s' := by
  cases pc with
  | testDirty | done =>
    cases h
    exact .of_eq fun _ _ => rfl
  | testSource dirty =>
    obtain ⟨e, -, heq⟩ := Option.map_eq_some_iff.mp h
    cases heq
    exact .of_eq fun _ _ => rfl
  | writeFile =>
    obtain ⟨e, -, heq⟩ := Option.map_eq_some_iff.mp h
    cases heq
    rcases fileWriteAt_eq s e.file ((s.mem fte.frame).bytes e.readBytes) e.ofs grow with
      h | ⟨-, h⟩ <;> rw [h] <;> exact .of_eq fun _ _ => rfl
  | clearFile | clearSwap =>
    cases h
    refine .of_eq fun q t => ?_
    rw [pagedirClearPage]
    split
    · rw [State.spte_setPte]
    · rfl
  | unloadFile | setFile | dropSlot | setSlot | unloadSwap | setSwap =>
    obtain ⟨e, hs, heq⟩ := Option.map_eq_some_iff.mp h
    cases heq
    exact .setEntry hs ⟨rfl, rfl, rfl, rfl, rfl⟩
  | takeSlot =>
    obtain ⟨b, -, heq⟩ := Option.map_eq_some_iff.mp h
    split at heq <;> cases heq <;> exact .of_eq fun _ _ => rfl
  | copyOut | reinsert =>
    cases h
    exact .of_eq fun _ _ => rfl

theorem MappingsFrom.of_fillStep {page : PageNo} {existing : Bool} {k : Frame} {a : Allocs}
    {pc : FillPc} {n : FillNext} (h : fillStep s p page existing k a pc = some (s', n)) :
    MappingsFrom s s' := by
  cases pc with
  | newEntry =>
    simp only [fillStep, supPageTableAdd] at h
    split at h
    · cases h
      exact .of_eq fun _ _ => rfl
    · rename_i hadd
      cases h
      split at hadd
      · cases hadd
        exact .of_eq fun _ _ => rfl
      · split at hadd
        · cases hadd
          refine .setSpte ?_
          rintro _ ⟨⟩ ⟨⟩
        · cases hadd
  | testFile | testSwap | setReclaimed =>
    obtain ⟨e, -, heq⟩ := Option.map_eq_some_iff.mp h
    cases heq
    exact .of_eq fun _ _ => rfl
  | readFile =>
    obtain ⟨e, -, heq⟩ := Option.map_eq_some_iff.mp h
    dsimp only at heq
    split at heq <;> cases heq <;> exact .of_eq fun _ _ => rfl
  | reclaim =>
    obtain ⟨e, -, heq⟩ := Option.map_eq_some_iff.mp h
    split at heq
    · cases heq
      exact .of_eq fun _ _ => rfl
    · rename_i hread
      cases heq
      simp only [swapReclaimPage] at hread
      split at hread
      · cases hread
      · obtain ⟨d, -, rfl⟩ := Option.map_eq_some_iff.mp hread
        exact .of_eq fun _ _ => rfl
  | setAux | removeFte =>
    cases h
    exact .of_eq fun _ _ => rfl
  | install reclaimed =>
    obtain ⟨e, -, h⟩ := Option.bind_eq_some_iff.mp h
    obtain ⟨i, hi, heq⟩ := Option.map_eq_some_iff.mp h
    rcases installPage_cases s p page k e.writable a.pageTable with h | h | ⟨-, h⟩ <;>
      rw [h] at hi <;> cases hi <;> cases heq
    · exact .of_eq fun _ _ => rfl
    · exact .of_eq fun q t => State.spte_setPte ..
  | freeSlot =>
    obtain ⟨e, -, heq⟩ := Option.map_eq_some_iff.mp h
    cases heq
    refine .of_eq fun q t => ?_
    simp only [swapFreeSlot]
    split
    · split <;> rfl
    · rfl
  | forgetSlot | backToFile | setLoaded =>
    obtain ⟨e, hs, heq⟩ := Option.map_eq_some_iff.mp h
    cases heq
    exact .setEntry hs ⟨rfl, rfl, rfl, rfl, rfl⟩
  | removeSpte =>
    cases h
    exact .setSpte (by simp)
  | freePage =>
    obtain ⟨s₁, hs, heq⟩ := Option.map_eq_some_iff.mp h
    cases heq
    rw [pallocFreePage_eq hs]
    exact .of_eq fun _ _ => rfl

/-- No step of the machine makes a mapping. -/
theorem MappingsFrom.of_next {x y : Machine} {m : Move} (hn : machineNext x m = some y) :
    MappingsFrom x.vm y.vm := by
  have hrefl : MappingsFrom x.vm x.vm := .of_eq fun _ _ => rfl
  cases m with
  | store pid addr v =>
    simp only [machineNext] at hn
    split at hn
    · split at hn
      · obtain ⟨s, hs, rfl⟩ := Option.map_eq_some_iff.mp hn
        simp only [userStore] at hs
        split at hs
        · cases hs
          exact .of_eq fun q t => State.spte_setPte ..
        · cases hs
      · cases hn
    · cases hn
  | fault pid f write =>
    simp only [machineNext] at hn
    split at hn
    · split at hn
      · cases hn
        exact hrefl
      · cases hn
    · cases hn
  | run pid a =>
    simp only [machineNext, runNext] at hn
    split at hn
    · cases hn
    · split at hn
      · cases hn
        exact hrefl.exit
      · split at hn
        · cases hn
          exact hrefl.exit
        · cases hn
          exact hrefl
    · split at hn
      · rename_i k s hk
        cases hn
        obtain ⟨r, -, heq⟩ := Option.map_eq_some_iff.mp hk
        cases heq
        exact .of_eq fun _ _ => rfl
      · cases hn
        exact hrefl
    · split at hn
      · cases hn
        exact hrefl.exit
      · rename_i fte s hpop
        obtain ⟨l, rfl, -, -⟩ := frameTablePop_perm hpop
        have htable : MappingsFrom x.vm (x.vm.setFrameTable l) := .of_eq fun _ _ => rfl
        split at hn
        · cases hn
          exact htable.exit
        · cases hn
          exact htable
    · obtain ⟨⟨s, n⟩, hr, rfl⟩ := Option.map_eq_some_iff.mp hn
      have h := MappingsFrom.of_evictStep hr
      cases n with
      | goto pc => exact h
      | ret k =>
        cases k with
        | none => exact h.exit
        | some k => exact h
    · rename_i page existing k hpc
      simp only [frameTableAdd] at hn
      split at hn
      · cases hn
        exact hrefl
      · rename_i s hadd
        cases hn
        split at hadd
        · cases hadd
          exact .of_eq fun _ _ => rfl
        · cases hadd
    · obtain ⟨⟨s, n⟩, hr, rfl⟩ := Option.map_eq_some_iff.mp hn
      have h := MappingsFrom.of_fillStep hr
      cases n with
      | goto pc => exact h
      | ret => exact h
      | exit => exact h.exit

end

end Pintos.Vm
