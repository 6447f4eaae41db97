/-
  Pintos.Vm.OutlineSteps

  The proof outline of `Pintos.Vm.Outline` statement by statement: if the
  assertion before a statement holds, the statement establishes the one after
  it, and the invariant holds again.
-/

import Pintos.Vm.Outline

namespace Pintos.Vm

open Pintos.Base Function

namespace ByteView

variable {v v' : ByteView} {pc : Pid → Pc} {q : Pid} {s r : PageNo} {existing : Bool} {k : Frame}
  {fte : FrameTableEntry} {c : Pc} {e : SupPageTableEntry} {i : Nat} {b : UInt8} {p : Pid}
  {e' : SupPageTableEntry} {cpc' : EvictPc} {f : Pid → PageNo → UInt8}

theorem updPage_none_eq_some {α : Type} {f : Pid → PageNo → Option α} {p' : Pid} {r r' : PageNo}
    {a : α} (h : updPage f p r none p' r' = some a) : f p' r' = some a := by
  simp only [updPage] at h
  split at h
  · cases h
  · exact h

theorem updPage_some_eq_some {α : Type} {f : Pid → PageNo → Option α} {p' : Pid} {r r' : PageNo}
    {a a' : α} (hne : a' ≠ a) (h : updPage f p r (some a) p' r' = some a') : f p' r' = some a' := by
  simp only [updPage] at h
  split at h
  · exact absurd (Option.some.inj h).symm hne
  · exact h

/-- A page has one entry. -/
theorem entry_of_exists {P : SupPageTableEntry → Prop} (h : ∃ e, v.spte p r = some e ∧ P e)
    (hs : v.spte p r = some e) : P e := by
  obtain ⟨e', he', hP⟩ := h
  rw [hs] at he'
  cases he'
  exact hP

/-! ## The links between pages and evictors -/

/-- `q` moves; the other evictors stay where they are. -/
theorem Links.step (h : v.Links pc)
    (hrev : ∀ p r, v'.rev p r = some q → ∃ k, c.role = .revoking (p, r) k)
    (hunl : ∀ p r, v'.unl p r = some q →
      ∃ page existing fte, c = .evict page existing fte r .unloadFile ∧ fte.owner = p)
    (hrevOther : ∀ p r q', q' ≠ q → v'.rev p r = some q' → v.rev p r = some q')
    (hunlOther : ∀ p r q', q' ≠ q → v'.unl p r = some q' → v.unl p r = some q') :
    v'.Links (update pc q c) := by
  constructor
  · intro p r q' hq'
    by_cases hq : q' = q
    · subst hq
      rw [update_self]
      exact hrev p r hq'
    · rw [update_of_ne hq]
      exact h.rev p r q' (hrevOther p r q' hq hq')
  · intro p r q' hq'
    by_cases hq : q' = q
    · subst hq
      rw [update_self]
      exact hunl p r hq'
    · rw [update_of_ne hq]
      exact h.unl p r q' (hunlOther p r q' hq hq')

/-- A process that is not evicting is not named. -/
theorem Links.not_rev (h : v.Links pc) (hrole : ∀ k, (pc q).role ≠ .revoking (p, r) k) :
    v.rev p r ≠ some q := by
  intro hq
  obtain ⟨k, hk⟩ := h.rev p r q hq
  exact hrole k hk

theorem Links.not_unl (h : v.Links pc)
    (hpc : ∀ s existing fte, pc q ≠ .evict s existing fte r .unloadFile) : v.unl p r ≠ some q := by
  intro hq
  obtain ⟨s, existing, fte, hpc', -⟩ := h.unl p r q hq
  exact hpc s existing fte hpc'

/-- A statement of `q` that does not change who evicts what. -/
theorem Inv.step_links (h : v.Inv pc)
    (hrole : ∀ p k, (pc q).role = .revoking p k → c.role = .revoking p k)
    (hpc : ∀ s existing fte r, pc q ≠ .evict s existing fte r .unloadFile)
    (hrev : v'.rev = v.rev) (hunl : v'.unl = v.unl) (hbase : v'.Base)
    (hothers : ∀ q', q' ≠ q → v.PcOk q' (pc q') → v'.PcOk q' (pc q')) (hc : v'.PcOk q c) :
    v'.Inv (update pc q c) := by
  refine h.step hbase (h.links.step ?_ ?_ ?_ ?_) hothers hc
  · intro p r hq
    rw [hrev] at hq
    obtain ⟨k, hk⟩ := h.links.rev p r q hq
    exact ⟨k, hrole _ _ hk⟩
  · intro p r hq
    rw [hunl] at hq
    exact absurd hq (h.links.not_unl fun s existing fte => hpc s existing fte r)
  · intro p r q' _ hq
    rwa [hrev] at hq
  · intro p r q' _ hq
    rwa [hunl] at hq

/-- A statement that leaves memory alone. -/
theorem Inv.move (h : v.Inv pc)
    (hrole : ∀ p k, (pc q).role = .revoking p k → c.role = .revoking p k)
    (hpc : ∀ s existing fte r, pc q ≠ .evict s existing fte r .unloadFile) (hc : v.PcOk q c) :
    v.Inv (update pc q c) :=
  h.step_links hrole hpc rfl rfl h.base (fun _ _ => id) hc

/-! ## Eviction -/

section

variable {cpc : EvictPc}

theorem Inv.evictOk (h : v.Inv pc) (hpc : pc q = .evict s existing fte r cpc) :
    v.Faulting q s existing ∧ v.EvictOk q fte.owner r cpc := by
  have hq := h.pcs q
  rwa [hpc] at hq

theorem Faulting.setEntry (h : v.Faulting q s existing)
    (hs : v.spte p r = some e) (hkind : e'.fileKind = e.fileKind) :
    Faulting { v with spte := updPage v.spte p r (some e') } q s existing := by
  grind -linarith

section

variable (h : v.Inv pc)

include h

/-- A statement of `swap_evict_frame` before the page table entry is cleared
    that does not change who evicts what. -/
theorem Inv.evictStep (hpc : pc q = .evict s existing fte r cpc)
    (hcleared : cpc.cleared = false) (hcleared' : cpc'.cleared = false) (hrev : v'.rev = v.rev)
    (hunl : v'.unl = v.unl) (hbase : v'.Base) (hfault : v'.Faulting q s existing)
    (hothers : ∀ q', q' ≠ q → v.PcOk q' (pc q') → v'.PcOk q' (pc q'))
    (hc : v'.EvictOk q fte.owner r cpc') :
    v'.Inv (update pc q (.evict s existing fte r cpc')) := by
  refine h.step_links ?_ ?_ hrev hunl hbase hothers ⟨hfault, hc⟩
  · intro p k hk
    simp only [hpc, Pc.role, hcleared, hcleared'] at hk ⊢
    exact hk
  · intro s' existing' fte' r' heq
    rw [hpc] at heq
    cases heq
    cases hcleared

/-- The statements of the swap branch that assign to the entry of the victim. -/
theorem Inv.setEntry_of_revoking
    (hpc : pc q = .evict s existing fte r cpc) (hcleared : cpc.cleared = false)
    (hcleared' : cpc'.cleared = false) (hrev : v.Revoking q fte.owner r)
    (hs : v.spte fte.owner r = some e) (hmapping : e'.mapping = e.mapping)
    (hwritable : e'.writable = e.writable) (hkind : e'.fileKind = e.fileKind)
    (hsource : e.mapping.isSome = true → e'.source = .fileBacked)
    (hc : EvictOk { v with spte := updPage v.spte fte.owner r (some e') } q fte.owner r cpc') :
    Inv { v with spte := updPage v.spte fte.owner r (some e') }
      (update pc q (.evict s existing fte r cpc')) := by
  refine h.evictStep hpc hcleared hcleared' rfl rfl
    (h.base.setEntry hs hrev.2 hmapping hwritable hkind hsource)
    ((h.evictOk hpc).1.setEntry hs hkind) (fun q' hq hok => ?_) hc
  exact hok.setEntry hs hkind (by rw [hrev.1]; simp [Ne.symm hq]) (Or.inr ⟨hrev.2, by simp [hrev.1]⟩)

theorem Inv.setSlot (hpc : pc q = .evict s existing fte r (.setSlot i))
    (hs : v.spte fte.owner r = some e) :
    Inv { v with spte := updPage v.spte fte.owner r (some { e with swapSlotIndex := some i }) }
      (update pc q (.evict s existing fte r (.unloadSwap i))) := by
  obtain ⟨hsaving, hsaved⟩ := (h.evictOk hpc).2
  refine h.setEntry_of_revoking hpc rfl rfl hsaving.1 hs rfl rfl rfl (h.base.kind _ _ _ hs) ?_
  grind -linarith [SupPageTableEntry.fileKind]

theorem Inv.unloadSwap (hpc : pc q = .evict s existing fte r (.unloadSwap i))
    (hs : v.spte fte.owner r = some e) :
    Inv { v with spte := updPage v.spte fte.owner r (some { e with isLoaded := false }) }
      (update pc q (.evict s existing fte r (.setSwap i))) := by
  obtain ⟨hsaving, hsaved, hslot⟩ := (h.evictOk hpc).2
  refine h.setEntry_of_revoking hpc rfl rfl hsaving.1 hs rfl rfl rfl (h.base.kind _ _ _ hs) ?_
  grind -linarith [SupPageTableEntry.fileKind]

theorem Inv.setSwap (hpc : pc q = .evict s existing fte r (.setSwap i))
    (hs : v.spte fte.owner r = some e) :
    Inv { v with spte := updPage v.spte fte.owner r (some { e with source := .swap }) }
      (update pc q (.evict s existing fte r (.clearSwap i))) := by
  obtain ⟨hsaving, hsaved, hslot⟩ := (h.evictOk hpc).2
  have hk := entry_of_exists hsaving.2.1 hs
  have hmapping : e.mapping.isSome = false := by
    grind -linarith [SupPageTableEntry.fileKind]
  refine h.setEntry_of_revoking hpc rfl rfl hsaving.1 hs rfl rfl ?_ (by simp [hmapping]) ?_
  · rw [hk]
    simp [SupPageTableEntry.fileKind, hmapping]
  · grind -linarith [SupPageTableEntry.fileKind]

/-- The statements of the file branch after the page table entry is cleared,
    which assign to the entry of the victim. -/
theorem Inv.setEntry_of_cleared
    (hpc : pc q = .evict s existing fte r cpc) (hcleared : cpc.cleared = true)
    (hne : cpc ≠ .unloadFile) (hfile : v.FileSide fte.owner r)
    (hs : v.spte fte.owner r = some e) (hmapping : e'.mapping = e.mapping)
    (hwritable : e'.writable = e.writable) (hsource : e'.source = e.source)
    (hload : e'.isLoaded = e.isLoaded)
    (hslot : e'.swapSlotIndex = e.swapSlotIndex ∨ e'.swapSlotIndex = none)
    (hc : EvictOk { v with spte := updPage v.spte fte.owner r (some e') } q fte.owner r cpc') :
    Inv { v with spte := updPage v.spte fte.owner r (some e') }
      (update pc q (.evict s existing fte r cpc')) := by
  have hk := entry_of_exists hfile hs
  have hkind : e'.fileKind = e.fileKind := by
    simp only [SupPageTableEntry.fileKind, hmapping, hwritable, hsource]
  refine h.step_links ?_ ?_ rfl rfl
    (h.base.setEntry_file hs hk hmapping hwritable hsource (by simp [hload])) ?_
    ⟨(h.evictOk hpc).1.setEntry hs hkind, hc⟩
  · intro p k hk
    simp [hpc, Pc.role, hcleared] at hk
  · intro s' existing' fte' r' heq
    rw [hpc] at heq
    cases heq
    exact hne rfl
  · intro q' _ hok
    exact hok.setEntry_file hs hk hmapping hwritable hsource (by simp [hload]) hslot

theorem Inv.source_of_fileSide (hfile : v.FileSide p r)
    (hs : v.spte p r = some e) : e.source = .fileBacked := by
  obtain ⟨e', he', hk⟩ := hfile
  have hkind := h.base.kind p r e hs
  grind -linarith [SupPageTableEntry.fileKind]

/-- `spte->source = FILE_BACKED` of an entry that has this source. -/
theorem Inv.setFile (hpc : pc q = .evict s existing fte r .setFile) :
    v.Inv (update pc q (.evict s existing fte r .dropSlot)) := by
  have hok : v.Faulting q s existing ∧ v.FileSide fte.owner r := h.evictOk hpc
  refine h.move ?_ ?_ hok
  · intro p k hk
    simp [hpc, Pc.role, EvictPc.cleared] at hk
  · simp [hpc]

theorem Inv.dropSlot (hpc : pc q = .evict s existing fte r .dropSlot)
    (hs : v.spte fte.owner r = some e) :
    Inv { v with spte := updPage v.spte fte.owner r (some { e with swapSlotIndex := none }) }
      (update pc q (.evict s existing fte r .done)) :=
  h.setEntry_of_cleared hpc rfl (by simp) (h.evictOk hpc).2 hs rfl rfl rfl rfl (Or.inr rfl) trivial

/-- `spte->is_loaded = false` in the file branch. -/
theorem Inv.unloadFile (hpc : pc q = .evict s existing fte r .unloadFile)
    (hs : v.spte fte.owner r = some e) :
    Inv { v with
        spte := updPage v.spte fte.owner r (some { e with isLoaded := false })
        unl := updPage v.unl fte.owner r none }
      (update pc q (.evict s existing fte r .setFile)) := by
  obtain ⟨hfault, hfile⟩ := h.evictOk hpc
  have hk := entry_of_exists hfile hs
  have hkind : { e with isLoaded := false }.fileKind = e.fileKind := rfl
  have hentry : Base
      { v with spte := updPage v.spte fte.owner r (some { e with isLoaded := false }) } :=
    h.base.setEntry_file hs hk rfl rfl rfl (by simp)
  refine h.step { hentry with loaded := ?_, unlFile := ?_ } (h.links.step ?_ ?_ ?_ ?_) ?_
    ⟨hfault.setEntry hs hkind, ?_⟩
  · intro p' r' e' hst hs' hload hm
    have hu := hentry.loaded p' r' e' hst hs' hload hm
    grind -linarith
  · intro p' r' hu
    refine hentry.unlFile p' r' ?_
    grind -linarith
  · intro p' r' hq
    obtain ⟨k, hk⟩ := h.links.rev p' r' q hq
    simp [hpc, Pc.role, EvictPc.cleared] at hk
  · intro p' r' hq
    simp only [updPage] at hq
    split at hq
    · cases hq
    · rename_i hne
      obtain ⟨s', existing', fte', hpc', howner⟩ := h.links.unl p' r' q hq
      rw [hpc] at hpc'
      cases hpc'
      exact absurd ⟨howner.symm, rfl⟩ hne
  · exact fun _ _ _ _ => id
  · exact fun _ _ _ _ => updPage_none_eq_some
  · intro q' _ hok
    exact hok.setEntry_file hs hk rfl rfl rfl (by simp) (Or.inl rfl)
  · exact ⟨{ e with isLoaded := false }, by simp [updPage], hk⟩

end

/-- After the page table entry of the victim is cleared, `q` evicts no page. -/
theorem Links.not_rev_cleared (h : v.Links pc) (hpc : pc q = .evict s existing fte r cpc)
    (hcleared : cpc.cleared = false) (p' : Pid) (r' : PageNo) :
    updPage v.rev fte.owner r none p' r' ≠ some q := by
  intro hq
  simp only [updPage] at hq
  split at hq
  · cases hq
  · rename_i hne
    obtain ⟨k, hk⟩ := h.rev p' r' q hq
    simp only [hpc, Pc.role, hcleared] at hk
    cases hk
    exact hne ⟨rfl, rfl⟩

theorem Faulting.clear {u : Pid → PageNo → Option Pid} {o : Nat → Option SlotUser}
    (h : v.Faulting q s existing) :
    Faulting { v with
      map := updPage v.map p r none
      rev := updPage v.rev p r none
      unl := u
      own := o } q s existing := by
  grind -linarith

section

variable (h : v.Inv pc)

include h

/-- `pagedir_clear_page` in the file branch. -/
theorem Inv.clearFile (hpc : pc q = .evict s existing fte r .clearFile) :
    Inv { v with
        map := updPage v.map fte.owner r none
        rev := updPage v.rev fte.owner r none
        unl := updPage v.unl fte.owner r (some q) }
      (update pc q (.evict s existing fte r .unloadFile)) := by
  obtain ⟨hfault, hok⟩ := h.evictOk hpc
  refine h.step (h.base.clearFile hok) (h.links.step ?_ ?_ ?_ ?_) ?_
    ⟨hfault.clear (o := v.own), hok.2.1⟩
  · intro p' r' hq
    exact absurd hq (h.links.not_rev_cleared hpc rfl p' r')
  · intro p' r' hq
    simp only [updPage] at hq
    split at hq
    · rename_i heq
      exact ⟨s, existing, fte, by rw [heq.2], heq.1.symm⟩
    · exact absurd hq (h.links.not_unl (by simp [hpc]))
  · exact fun _ _ _ _ => updPage_none_eq_some
  · exact fun _ _ _ => updPage_some_eq_some
  · exact fun q' hq' hq => hq.clear hq' hok.1

/-- `pagedir_clear_page` in the swap branch: the slot is the page's now. -/
theorem Inv.clearSwap (hpc : pc q = .evict s existing fte r (.clearSwap i)) :
    Inv { v with
        map := updPage v.map fte.owner r none
        rev := updPage v.rev fte.owner r none
        own := update v.own i (some (.page fte.owner r)) }
      (update pc q (.evict s existing fte r .done)) := by
  obtain ⟨hfault, hok⟩ := h.evictOk hpc
  refine h.step (h.base.clearSwap hok) (h.links.step ?_ ?_ ?_ ?_) ?_ ⟨hfault.clear, trivial⟩
  · intro p' r' hq
    exact absurd hq (h.links.not_rev_cleared hpc rfl p' r')
  · intro p' r' hq
    exact absurd hq (h.links.not_unl (by simp [hpc]))
  · exact fun _ _ _ _ => updPage_none_eq_some
  · exact fun _ _ _ _ => id
  · intro q' hq' hq
    have hown : v.own i = some (.evictor q) := hok.1.2.2
    have hclear := hq.clear (u := v.unl) hq' hok.1.1
    exact hclear.setOwn (by rw [hown]; simp [Ne.symm hq']) (by rw [hown]; simp)

/-- `frame_table_insert; return NULL`. -/
theorem Inv.reinsert (hpc : pc q = .evict s existing fte r .reinsert) :
    Inv { v with rev := updPage v.rev fte.owner r none } (update pc q .user) := by
  obtain ⟨-, hok⟩ := h.evictOk hpc
  refine h.step h.base.reinsert (h.links.step ?_ ?_ ?_ ?_) ?_ trivial
  · intro p' r' hq
    exact absurd hq (h.links.not_rev_cleared hpc rfl p' r')
  · intro p' r' hq
    exact absurd hq (h.links.not_unl (by simp [hpc]))
  · exact fun _ _ _ _ => updPage_none_eq_some
  · exact fun _ _ _ _ => id
  · exact fun q' hq' hq => hq.reinsert hq' hok

/-- `frame_table_pop_lru` of an installed page that is marked loaded. -/
theorem Inv.pop (hpc : pc q = .popLru s existing)
    (hm : v.map fte.owner r ≠ none) (hrev : v.rev fte.owner r = none)
    (hs : v.spte fte.owner r = some e) (hl : e.isLoaded = true) :
    Inv { v with rev := updPage v.rev fte.owner r (some q) }
      (update pc q (.evict s existing fte r .testDirty)) := by
  have hfault : v.Faulting q s existing := by
    have hq := h.pcs q
    rwa [hpc] at hq
  refine h.step (h.base.pop hm) (h.links.step ?_ ?_ ?_ ?_) (fun q' _ hq => hq.pop hrev hs hl)
    ⟨hfault, by simp [updPage], hm⟩
  · intro p' r' hq
    simp only [updPage] at hq
    split at hq
    · rename_i heq
      rw [heq.1, heq.2]
      exact ⟨fte.frame, rfl⟩
    · exact absurd hq (h.links.not_rev fun k => by simp [hpc, Pc.role])
  · intro p' r' hq
    exact absurd hq (h.links.not_unl (by simp [hpc]))
  · exact fun _ _ _ => updPage_some_eq_some
  · exact fun _ _ _ _ => id

/-- `dirty = pagedir_is_dirty (...)`. -/
theorem Inv.testDirty (hpc : pc q = .evict s existing fte r .testDirty) :
    v.Inv (update pc q (.evict s existing fte r (.testSource (v.dirty fte.owner r)))) := by
  obtain ⟨hfault, hrev⟩ := h.evictOk hpc
  refine h.evictStep hpc rfl rfl rfl rfl h.base hfault (fun _ _ => id) ⟨hrev, ?_⟩
  intro hclean b e hst hs hmapping
  exact h.base.clean _ _ b e hrev.2 hst hs hmapping hclean

/-- The tests on the victim's entry. -/
theorem Inv.testSource {dirty : Bool}
    (hpc : pc q = .evict s existing fte r (.testSource dirty)) (hs : v.spte fte.owner r = some e) :
    v.Inv (update pc q (.evict s existing fte r (evictBranch e dirty))) := by
  obtain ⟨hfault, hrev, hclean⟩ := h.evictOk hpc
  refine h.evictStep hpc rfl (evictBranch_cleared e dirty) rfl rfl h.base hfault (fun _ _ => id) ?_
  have hkind := h.base.kind _ _ e hs
  have hstored := h.base.stored fte.owner r
  simp only [evictBranch, ← Option.not_isSome]
  split
  · split
    · exact ⟨hrev, e, hs, by grind -linarith⟩
    · split
      · exact ⟨hrev, e, hs, by grind -linarith [SupPageTableEntry.fileKind]⟩
      · -- a page that was stored to is writable, so it belongs to a mapping and was clean
        refine ⟨hrev, ⟨e, hs, by grind -linarith [SupPageTableEntry.fileKind]⟩, fun b hst => ?_⟩
        obtain ⟨e', he', hw⟩ := hstored (by simp [hst])
        refine hclean ?_ b e hst hs ?_ <;> grind -linarith
  · exact ⟨hrev, e, hs, by grind -linarith [SupPageTableEntry.fileKind]⟩

/-- `file_write_at` writes all bytes. -/
theorem Inv.writeFile (hpc : pc q = .evict s existing fte r .writeFile)
    (hself : ∀ b, v.st fte.owner r = some b → f fte.owner r = b)
    (hother : ∀ q s, ¬ (q = fte.owner ∧ s = r) → v.st q s ≠ none →
      (∀ e, v.spte q s = some e → e.mapping.isSome = true → f q s = v.file q s)) :
    Inv { v with file := f } (update pc q (.evict s existing fte r .clearFile)) := by
  obtain ⟨hfault, hrev, e, hs, hmapping⟩ := h.evictOk hpc
  refine h.evictStep hpc rfl rfl rfl rfl (h.base.writeFile hself hother) hfault ?_
    ⟨hrev, ⟨e, hs, by simp [SupPageTableEntry.fileKind, hmapping]⟩, hself⟩
  exact fun q' hq' hq => hq.writeFile hq' hrev h.base.stored hother

/-- `file_write_at` fails, or there is no slot. -/
theorem Inv.giveUp (hpc : pc q = .evict s existing fte r cpc)
    (hcleared : cpc.cleared = false) (hrev : v.Revoking q fte.owner r) :
    v.Inv (update pc q (.evict s existing fte r .reinsert)) :=
  h.evictStep hpc hcleared rfl rfl rfl h.base (h.evictOk hpc).1 (fun _ _ => id) hrev

/-- `bitmap_scan_and_flip` finds slot `i`. -/
theorem Inv.takeSlot {used : Nat → Prop}
    (hpc : pc q = .evict s existing fte r .takeSlot) (hfree : ¬ v.used i)
    (hused : ∀ j, used j ↔ j = i ∨ v.used j) :
    Inv { v with used := used, own := update v.own i (some (.evictor q)) }
      (update pc q (.evict s existing fte r (.copyOut i))) := by
  obtain ⟨hfault, hrev, hswap⟩ := h.evictOk hpc
  have hnone : v.own i = none := by
    by_contra hne
    exact hfree (h.base.used i hne)
  refine h.evictStep hpc rfl rfl rfl rfl (h.base.takeSlot hfree hused) hfault ?_
    ⟨hrev, hswap, by simp⟩
  exact fun q' _ hq => hq.setOwn (by simp [hnone]) (by simp [hnone])

/-- `write_to_block`. -/
theorem Inv.copyOut (hpc : pc q = .evict s existing fte r (.copyOut i))
    (hm : v.map fte.owner r = some k) :
    Inv { v with slot := update v.slot i (v.mem k) }
      (update pc q (.evict s existing fte r (.setSlot i))) := by
  obtain ⟨hfault, hsaving⟩ := h.evictOk hpc
  refine h.evictStep hpc rfl rfl rfl rfl (h.base.copyOut hsaving.2.2) hfault ?_ ⟨hsaving, ?_⟩
  · exact fun q' hq' hq => hq.copyOut hq' hsaving.2.2
  · intro b hst
    show update v.slot i (v.mem k) i = b
    rw [update_self]
    exact h.base.mapped _ _ k b hm hst

end

end

/-! ## Filling a frame -/

section

variable {cpc : FillPc}

section

variable (h : v.Inv pc)

include h

theorem Inv.fillOk (hpc : pc q = .fill s existing k cpc) :
    v.FillOk q s existing k cpc := by
  have hq := h.pcs q
  rwa [hpc] at hq

/-- A statement of a process that is not evicting. -/
theorem Inv.plainStep (hpc : ∀ s existing fte r cpc, pc q ≠ .evict s existing fte r cpc)
    (hrev : v'.rev = v.rev) (hunl : v'.unl = v.unl) (hbase : v'.Base)
    (hothers : ∀ q', q' ≠ q → v.PcOk q' (pc q') → v'.PcOk q' (pc q')) (hc : v'.PcOk q c) :
    v'.Inv (update pc q c) := by
  refine h.step_links ?_ (fun _ _ _ _ => hpc _ _ _ _ _) hrev hunl hbase hothers hc
  intro p k hk
  -- only evictors revoke
  cases hq : pc q with
  | evict s existing fte r cpc => exact absurd hq (hpc _ _ _ _ _)
  | fill s existing k cpc => cases cpc <;> simp [hq, Pc.role] at hk
  | _ => simp [hq, Pc.role] at hk

/-- A statement that writes a frame nobody else can reach. -/
theorem Inv.writeMem (hpc : ∀ s existing fte r cpc, pc q ≠ .evict s existing fte r cpc)
    (hk : ∀ p r, v.map p r ≠ some k) (hothers : ∀ q', q' ≠ q → (pc q').role ≠ .listed k)
    (hc : PcOk { v with mem := update v.mem k b } q c) :
    Inv { v with mem := update v.mem k b } (update pc q c) :=
  h.plainStep hpc rfl rfl (h.base.writeMem hk) (fun q' hq' hq => hq.writeMem (hothers q' hq')) hc

/-- A statement of `page_fault` that leaves memory alone. -/
theorem Inv.fillMove (hpc : pc q = .fill s existing k cpc) (hc : v.PcOk q c) :
    v.Inv (update pc q c) :=
  h.plainStep (by simp [hpc]) rfl rfl h.base (fun _ _ => id) hc

/-- `sup_page_table_add` makes an entry. -/
theorem Inv.newEntry (hpc : pc q = .fill s existing k .newEntry) (hs : v.spte q s = none)
    (hf : ∀ p r, ¬ (p = q ∧ r = s) → f p r = v.file p r) :
    Inv { v with spte := updPage v.spte q s (some .fresh), file := f }
      (update pc q (.fill s existing k (.setAux false))) := by
  obtain ⟨hfault, hex⟩ := h.fillOk hpc
  obtain ⟨hst, hkind⟩ := hfault.2 hex
  have hm : v.map q s = none := by
    by_contra hne
    obtain ⟨e, he, -⟩ := h.base.entry q s hne
    rw [hs] at he
    cases he
  refine h.plainStep (by simp [hpc]) rfl rfl (h.base.setAbsent hst hm hkind ?_ hf)
    (fun q' hq' hq => hq.setAbsent hm hkind hq' hf) ⟨⟨fun _ => hm, fun _ => ⟨hst, ?_⟩⟩, ?_, by simp⟩
  · rintro e ⟨⟩
    exact ⟨rfl, rfl⟩
  · intro e he
    simp only [updPage, and_self, if_true] at he
    cases he
    rfl
  · intro _ b e hb
    simp only [hst] at hb
    cases hb

/-- `if (!spte->is_loaded && spte->source == FILE_BACKED)`, while nobody is
    about to mark the page as not loaded. -/
theorem Inv.testFile (hpc : pc q = .fill s existing k .testFile)
    (hs : v.spte q s = some e) (hunl : v.unl q s = none) :
    v.Inv (update pc q (.fill s existing k
      (if !e.isLoaded && e.source = .fileBacked then .readFile else .testSwap))) := by
  have hfault := h.fillOk hpc
  refine h.fillMove hpc ?_
  have hload : isUserVaddr (s * PGSIZE) = true → v.st q s ≠ none → e.isLoaded = false := by
    intro huser hst
    by_contra hne
    exact h.base.loaded q s e hst hs (by simpa using hne) (hfault.1 huser) hunl
  split
  · refine ⟨hfault, fun huser b e' hb he' => ?_⟩
    simp only [Bool.and_eq_true, Bool.not_eq_true', decide_eq_true_eq] at *
    grind -linarith
  · refine ⟨hfault, fun huser b e' hb he' => ?_⟩
    simp only [Bool.and_eq_true, Bool.not_eq_true', decide_eq_true_eq] at *
    grind -linarith

/-- `file_read_at` and `memset`. -/
theorem Inv.readFile (hpc : pc q = .fill s existing k .readFile)
    (hs : v.spte q s = some e) (hk : ∀ p r, v.map p r ≠ some k)
    (hothers : ∀ q', q' ≠ q → (pc q').role ≠ .listed k)
    (hb : v.st q s ≠ none → e.mapping.isSome = true → b = v.file q s) :
    Inv { v with mem := update v.mem k b }
      (update pc q (.fill s existing k .testSwap)) := by
  obtain ⟨hfault, hreload⟩ := h.fillOk hpc
  refine h.writeMem (by simp [hpc]) hk hothers ⟨hfault, fun huser b' e' hst he' => ?_⟩
  obtain ⟨hload, hsource⟩ := hreload huser b' e' hst he'
  refine ⟨hload, fun _ => ?_⟩
  rw [show v.spte q s = some e' from he'] at hs
  cases hs
  have hbacked := h.base.backed q s b' e (hfault.1 huser) hst he'
  show update v.mem k b k = b'
  rw [update_self]
  -- a page of this source that was stored to belongs to a mapping
  cases hmapping : e.mapping.isSome with
  | true =>
    rw [hb (by simp only [ne_eq]; intro hn; rw [hn] at hst; cases hst) hmapping]
    exact hbacked.1 hmapping
  | false =>
    have := (hbacked.2 hmapping).1
    rw [hsource] at this
    cases this

/-- `if (!spte->is_loaded && spte->source == SWAP ...`. -/
theorem Inv.testSwap (hpc : pc q = .fill s existing k .testSwap) (hs : v.spte q s = some e) :
    v.Inv (update pc q (.fill s existing k
      (if !e.isLoaded && e.source = .swap then .reclaim else .setReclaimed))) := by
  obtain ⟨hfault, hreload⟩ := h.fillOk hpc
  refine h.fillMove hpc ?_
  have hbacked := fun b huser hst => h.base.backed q s b e (hfault.1 huser) hst hs
  have hkind := h.base.kind q s e hs
  split
  · refine ⟨hfault, fun huser b e' hb he' => ?_⟩
    have := hreload huser b e' hb he'
    simp only [Bool.and_eq_true, Bool.not_eq_true', decide_eq_true_eq] at *
    grind -linarith
  · refine ⟨hfault, fun huser b e' hb he' => ?_⟩
    have := hreload huser b e' hb he'
    have := hbacked b huser hb
    simp only [Bool.and_eq_true, Bool.not_eq_true', decide_eq_true_eq] at *
    grind -linarith

/-- `swap_reclaim_page`. -/
theorem Inv.reclaim (hpc : pc q = .fill s existing k .reclaim)
    (hs : v.spte q s = some e) (hk : ∀ p r, v.map p r ≠ some k)
    (hothers : ∀ q', q' ≠ q → (pc q').role ≠ .listed k)
    (hi : e.swapSlotIndex = some i) :
    Inv { v with mem := update v.mem k (v.slot i) }
      (update pc q (.fill s existing k .setReclaimed)) := by
  obtain ⟨hfault, hreload⟩ := h.fillOk hpc
  refine h.writeMem (by simp [hpc]) hk hothers ⟨hfault, fun huser b e' hst he' => ?_⟩
  obtain ⟨hload, hsource⟩ := hreload huser b e' hst he'
  rw [show v.spte q s = some e' from he'] at hs
  cases hs
  refine ⟨hload, ?_⟩
  show update v.mem k (v.slot i) k = b
  rw [update_self]
  have hbacked := h.base.backed q s b e (hfault.1 huser) hst he'
  have hkind := h.base.kind q s e he'
  cases hmapping : e.mapping.isSome with
  | true =>
    rw [hkind hmapping] at hsource
    cases hsource
  | false =>
    obtain ⟨-, j, hj, hslot⟩ := hbacked.2 hmapping
    rw [hi] at hj
    cases hj
    exact hslot

/-- `reclaimed_page = !spte->is_loaded && spte->source == SWAP`. -/
theorem Inv.setReclaimed (hpc : pc q = .fill s existing k .setReclaimed)
    (hs : v.spte q s = some e) :
    v.Inv (update pc q
      (.fill s existing k (.setAux (!e.isLoaded && e.source = .swap)))) := by
  obtain ⟨hfault, hreload⟩ := h.fillOk hpc
  refine h.fillMove hpc ⟨hfault, hreload, fun hr _ => ?_⟩
  simp only [Bool.and_eq_true, Bool.not_eq_true', decide_eq_true_eq] at hr
  exact ⟨e, hs, hr⟩

/-- `install_page` succeeds. -/
theorem Inv.install {reclaimed : Bool}
    (hpc : pc q = .fill s existing k (.install reclaimed)) (hs : v.spte q s = some e)
    (huser : isUserVaddr (s * PGSIZE) = true) :
    Inv { v with
        map := updPage v.map q s (some k)
        dirty := updPage v.dirty q s false
        writable := updPage v.writable q s e.writable }
      (update pc q
        (.fill s existing k (if reclaimed then .freeSlot else .setLoaded))) := by
  have hready : v.Ready q s existing k reclaimed := h.fillOk hpc
  have ⟨hfault, hreload, hreclaimed⟩ := hready
  have hm : v.map q s = none := hfault.1 huser
  have hrev : v.rev q s = none := by
    by_contra hne
    exact h.base.revMap q s hne hm
  have hmap : updPage v.map q s (some k) q s ≠ none := by simp [updPage]
  refine h.plainStep (by simp [hpc]) rfl rfl (h.base.install hready huser hs)
    (fun q' hq' hq => hq.install hq') ?_
  cases reclaimed with
  | true =>
    obtain ⟨hload, hsource⟩ := entry_of_exists (hreclaimed rfl huser) hs
    refine ⟨⟨hmap, hrev, e, hs, hload⟩, fun e' he' => ?_⟩
    rw [show v.spte q s = some e' from he'] at hs
    cases hs
    exact ⟨hsource, fun i hi => h.base.swapped q s e i he' hload hsource hi hm⟩
  | false =>
    intro hst
    obtain ⟨b, hb⟩ := Option.ne_none_iff_exists'.mp hst
    exact ⟨hmap, hrev, e, hs, (hreload huser b e hb hs).1⟩

/-- `install_page` fails. -/
theorem Inv.installFails {reclaimed : Bool} (hpc : pc q = .fill s existing k (.install reclaimed))
    (huser : isUserVaddr (s * PGSIZE) = true) :
    v.Inv (update pc q (.fill s existing k (.removeFte (!existing)))) :=
  h.fillMove hpc ⟨(h.fillOk hpc).1, fun hex => ⟨by simpa using hex, huser⟩⟩

/-- `swap_free_slot` of the page's slot. -/
theorem Inv.freeSlot {used : Nat → Prop}
    (hpc : pc q = .fill s existing k .freeSlot) (hs : v.spte q s = some e)
    (hi : e.swapSlotIndex = some i) (hused : ∀ j, used j ↔ j ≠ i ∧ v.used j) :
    Inv { v with used := used, own := update v.own i none }
      (update pc q (.fill s existing k .forgetSlot)) := by
  obtain ⟨hinstalled, hslot⟩ := h.fillOk hpc
  have hown := (hslot e hs).2 i hi
  refine h.plainStep (by simp [hpc]) rfl rfl (h.base.freeSlot hown hinstalled.1 hused) ?_ hinstalled
  intro q' hq' hq
  refine hq.setOwn ?_ ?_
  · rw [hown]
    simp
  · intro s'
    rw [hown]
    simp [Ne.symm hq']

/-- The owner assigns to the entry of a page that it has just installed. -/
theorem Inv.setEntry_of_installed
    (hpc : pc q = .fill s existing k cpc) (hinstalled : v.Installed q s)
    (hs : v.spte q s = some e) (hmapping : e'.mapping = e.mapping)
    (hwritable : e'.writable = e.writable) (hsource : e'.source = e.source)
    (hc : PcOk { v with spte := updPage v.spte q s (some e') } q c) :
    Inv { v with spte := updPage v.spte q s (some e') } (update pc q c) := by
  have hkind : e'.fileKind = e.fileKind := by
    simp only [SupPageTableEntry.fileKind, hmapping, hwritable, hsource]
  refine h.plainStep (by simp [hpc]) rfl rfl
    (h.base.setEntry hs hinstalled.1 hmapping hwritable hkind ?_)
    (fun q' hq' hq => hq.setEntry hs hkind (by simp [hinstalled.2.1]) (Or.inl hq')) hc
  rw [hsource]
  exact h.base.kind q s e hs

/-- `spte->swap_slot_index = BITMAP_ERROR`. -/
theorem Inv.forgetSlot (hpc : pc q = .fill s existing k .forgetSlot) (hs : v.spte q s = some e) :
    Inv { v with spte := updPage v.spte q s (some { e with swapSlotIndex := none }) }
      (update pc q (.fill s existing k .backToFile)) := by
  have hinstalled : v.Installed q s := h.fillOk hpc
  have hload : e.isLoaded = false := entry_of_exists hinstalled.2.2 hs
  refine h.setEntry_of_installed hpc hinstalled hs rfl rfl rfl ⟨hinstalled.1, hinstalled.2.1, ?_⟩
  exact ⟨{ e with swapSlotIndex := none }, by simp [updPage], hload⟩

/-- `spte->is_loaded = true`. -/
theorem Inv.setLoaded (hpc : pc q = .fill s existing k .setLoaded) (hs : v.spte q s = some e) :
    Inv { v with spte := updPage v.spte q s (some { e with isLoaded := true }) }
      (update pc q .user) := by
  by_cases hst : v.st q s = none
  · exact h.plainStep (by simp [hpc]) rfl rfl (h.base.setLoaded hs hst)
      (fun q' hq' hq => hq.setLoaded hs hst hq') trivial
  · exact h.setEntry_of_installed hpc (h.fillOk hpc hst) hs rfl rfl rfl trivial

/-- `sup_page_table_remove`. -/
theorem Inv.removeSpte (hpc : pc q = .fill s existing k .removeSpte)
    (hf : ∀ p r, ¬ (p = q ∧ r = s) → f p r = v.file p r) :
    Inv { v with spte := updPage v.spte q s none, file := f }
      (update pc q (.fill s existing k .freePage)) := by
  obtain ⟨hfault, hex, huser⟩ := h.fillOk hpc
  obtain ⟨hst, hkind⟩ := hfault.2 hex
  have hm := hfault.1 huser
  exact h.plainStep (by simp [hpc]) rfl rfl (h.base.setAbsent hst hm hkind (by simp) hf)
    (fun q' hq' hq => hq.setAbsent hm hkind hq' hf) trivial

end

end

/-! ## Stores -/

/-- A store at the offset of the view. -/
theorem Inv.store (h : v.Inv pc) (hpc : pc q = .user)
    (hinj : ∀ p r', v.map p r' = some k → p = q ∧ r' = r) (hm : v.map q r = some k)
    (hw : v.writable q r = true) (hothers : ∀ q', q' ≠ q → (pc q').role ≠ .listed k)
    (hcopied : ∀ q' s existing fte cpc e, pc q' = .evict s existing fte r cpc → fte.owner = q →
      v.spte q r = some e → copied e.mapping.isSome cpc = false) :
    Inv { v with
        mem := update v.mem k b
        dirty := updPage v.dirty q r true
        st := updPage v.st q r (some b) } pc := by
  have hstep : Inv { v with
      mem := update v.mem k b
      dirty := updPage v.dirty q r true
      st := updPage v.st q r (some b) } (update pc q .user) :=
    h.plainStep (by simp [hpc]) rfl rfl (h.base.store hinj hm hw)
      (fun q' hq' hq => hq.store hq' (fun s existing fte cpc e => hcopied q' s existing fte cpc e)
        (hothers q' hq')) trivial
  rwa [← hpc, update_eq_self] at hstep

/-- A store at another offset. -/
theorem Inv.touch (h : v.Inv pc) {d : Pid → PageNo → Bool}
    (hd : ∀ p r, d p r = false → v.dirty p r = false) : Inv { v with dirty := d } pc := by
  refine ⟨{ h.base with clean := ?_ }, ⟨h.links.rev, h.links.unl⟩, fun q => ?_⟩
  · intro p r b e hm hst hs hmapping hdirty
    exact h.base.clean p r b e hm hst hs hmapping (hd p r hdirty)
  · exact (h.pcs q).imp (fun _ => id) (fun _ _ => id)
      (fun _ _ _ _ cpc _ hok => by cases cpc <;> exact hok)
      (fun _ _ _ cpc _ hok => by cases cpc <;> exact hok)

end ByteView

end Pintos.Vm
