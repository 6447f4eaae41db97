/-
  Pintos.Vm.OutlineSound

  Every statement of the handlers is a statement of the proof outline, at every
  byte offset.  Where the outline asks for something about frames, the ledger
  of `Pintos.Vm.FrameOwners` has it; where it asks for something about files,
  the pages of mappings have it.
-/

import Pintos.Vm.View

namespace Pintos.Vm

open Pintos.Base Pintos.Lib Function

variable {e' e : SupPageTableEntry}

/-! ## Pages of mappings -/

/-- The pages of the mappings, as long as there are handlers: each has its own
    part of its file, and a page that was stored to is the only way to the
    bytes that were stored. -/
structure MappingsOk (s : State) (st : Stored) : Prop where
  page : ∀ p r e m, s.spte p r = some e → e.mapping = some m →
    e.file = m.file ∧ e.ofs % PGSIZE = 0 ∧ e.readBytes + e.zeroBytes = PGSIZE
  ofs_inj : ∀ p r t e e' m, s.spte p r = some e → s.spte p t = some e' →
    e.mapping = some m → e'.mapping = some m → e.ofs = e'.ofs → r = t
  stored : ∀ p r e m off, s.spte p r = some e → e.mapping = some m → st p r off ≠ none →
    off < e.readBytes ∧ ∀ q t e' m', s.spte q t = some e' → e'.mapping = some m' →
      m'.file = m.file → q = p ∧ m' = m

section

variable {s s' : State} {st : Stored} {off : Nat}

theorem MappingsFrom.mapping (h : MappingsFrom s s') {p : Pid} {r : PageNo} {m : MemoryMapping} (hs : s'.spte p r = some e')
    (hm : e'.mapping = some m) :
    ∃ e, s.spte p r = some e ∧ e.mapping = some m ∧ SamePlace e e' := by
  obtain ⟨e, he, hplace⟩ := h p r e' hs (by simp [hm])
  exact ⟨e, he, by rw [← hplace.mapping, hm], hplace⟩

theorem MappingsOk.of_from (h : MappingsOk s st) (hfrom : MappingsFrom s s') :
    MappingsOk s' st := by
  constructor
  · intro p r e' m hs hm
    obtain ⟨e, he, hem, hplace⟩ := hfrom.mapping hs hm
    rw [hplace.file, hplace.ofs, hplace.readBytes, hplace.zeroBytes]
    exact h.page p r e m he hem
  · intro p r t e₁' e₂' m hs₁ hs₂ hm₁ hm₂ hofs
    obtain ⟨e₁, he₁, hem₁, hp₁⟩ := hfrom.mapping hs₁ hm₁
    obtain ⟨e₂, he₂, hem₂, hp₂⟩ := hfrom.mapping hs₂ hm₂
    rw [hp₁.ofs, hp₂.ofs] at hofs
    exact h.ofs_inj p r t e₁ e₂ m he₁ he₂ hem₁ hem₂ hofs
  · intro p r e' m off hs hm hst
    obtain ⟨e, he, hem, hplace⟩ := hfrom.mapping hs hm
    obtain ⟨hoff, hsole⟩ := h.stored p r e m off he hem hst
    refine ⟨by rwa [hplace.readBytes], fun q t e₁ m' he₁ hm' hf => ?_⟩
    obtain ⟨e₂, he₂, hem', -⟩ := hfrom.mapping he₁ hm'
    exact hsole q t e₂ m' he₂ hem' hf

/-- Where nothing has been stored yet. -/
theorem MappingsOk.of_shape {h : Option Frame} (hs : Shape s h) :
    MappingsOk s fun _ _ _ => none := by
  refine ⟨fun p r e m he hm => ?_, hs.entries.ofs_inj, by simp⟩
  have hentry := hs.entries.entry p r e he
  obtain ⟨hsource, hfile, -, hofs, -⟩ := hentry.mapping m hm
  exact ⟨hfile, hofs, hentry.bytes hsource⟩

/-- Writing a page back does not touch the part of the file another page has. -/
theorem filePage_writeBack_of_ne {d : PageData} (hne : e'.ofs ≠ e.ofs)
    (hofs : e.ofs % PGSIZE = 0) (hofs' : e'.ofs % PGSIZE = 0) (hread : e.readBytes ≤ PGSIZE)
    (hoff : off < PGSIZE) :
    filePage (s.setFile e.file { s.files e.file with
      contents := overwrite 0 (s.files e.file).contents e.ofs (d.bytes e.readBytes) }) e' off =
      filePage s e' off := by
  by_cases hf : e'.file = e.file
  · simp only [filePage, State.setFile, hf, update_self, overwrite_getElem?,
      PageData.bytes_length]
    simp only [PGSIZE] at *
    split
    · split
      · split
        · rfl
        · rw [List.getElem?_eq_none (by omega)]
          rfl
      · rw [if_neg (by omega)]
    · rfl
  · simp [filePage, State.setFile, hf]

/-- The bytes of the files after a page was written back. -/
theorem MappingsOk.fileByte_writeBack (h : MappingsOk s st) {p q : Pid} {r t : PageNo} {d : PageData} (hs : s.spte p r = some e)
    (hm : e.mapping.isSome = true) (hne : ¬ (q = p ∧ t = r)) (hst : st q t off ≠ none)
    (hs' : s.spte q t = some e') (hm' : e'.mapping.isSome = true) (hoff : off < PGSIZE) :
    fileByte (s.setFile e.file { s.files e.file with
      contents := overwrite 0 (s.files e.file).contents e.ofs (d.bytes e.readBytes) }) off q t =
      fileByte s off q t := by
  obtain ⟨m, hm⟩ := Option.isSome_iff_exists.mp hm
  obtain ⟨m', hm'⟩ := Option.isSome_iff_exists.mp hm'
  obtain ⟨hfile, hofs, hbytes⟩ := h.page p r e m hs hm
  obtain ⟨hfile', hofs', -⟩ := h.page q t e' m' hs' hm'
  simp only [fileByte, State.spte_setFile, hs']
  by_cases hf : e'.file = e.file
  · -- the file has one mapping, and its pages are in different parts of it
    obtain ⟨hp, rfl⟩ := (h.stored q t e' m' off hs' hm' hst).2 p r e m hs hm
      (by rw [← hfile, ← hfile', hf])
    subst hp
    refine filePage_writeBack_of_ne ?_ hofs hofs' (by omega) hoff
    intro heq
    exact hne ⟨rfl, h.ofs_inj p t r e' e m hs' hs hm' hm heq⟩
  · exact congrFun (filePage_congr (by simp [State.setFile, hf])) off

end

/-! ## The handlers follow the outline -/

/-- At every offset the invariant of the outline holds. -/
def Outlined (x : Machine) (st : Stored) : Prop :=
  ∃ g, ∀ off < PGSIZE, (view x.vm st g off).Inv x.pc

section

variable {x y : Machine} {st : Stored} {g : Ghost} {pid : Pid} {page vpage : PageNo}
  {existing : Bool} {k : Frame} {fte : FrameTableEntry} {s s' : State} {a : Allocs}

theorem Outlined.goto {c : Pc} (h : ∀ off < PGSIZE, (view s st g off).Inv (update x.pc pid c)) :
    Outlined (x.goto pid s c) st := ⟨g, h⟩

theorem Outlined.exit (h : ∀ off < PGSIZE, (view s st g off).Inv (update x.pc pid .user)) :
    Outlined (x.exit pid s) st := by
  refine ⟨g, fun off hoff => ?_⟩
  rw [Machine.exit, Machine.goto, view_exit]
  exact h off hoff

/-- An assignment to a field of an entry. -/
theorem Outlined.setEntry {c : Pc} {p : Pid} {r : PageNo}
    (hs : s.spte p r = some e) (he : SamePlace e e')
    (h : ∀ off < PGSIZE, ByteView.Inv
      { view s st g off with spte := updPage s.spte p r (some e') } (update x.pc pid c)) :
    Outlined (x.goto pid (s.setSpte p r (some e')) c) st := by
  refine .goto (g := g) fun off hoff => ?_
  rw [view_setEntry hs he.file he.ofs he.readBytes]
  exact h off hoff

theorem view_setFrameTable (l : List FrameTableEntry) (off : Nat) :
    view (s.setFrameTable l) st g off = view s st g off :=
  view_congr rfl rfl rfl rfl rfl rfl

/-- The victim is mapped until its page table entry is cleared. -/
theorem Machine.map_of_revoking (hok : x.ledger.Ok) {pc : EvictPc}
    (hpc : x.pc pid = .evict page existing fte vpage pc) (hcleared : pc.cleared = false) :
    pagedirGetPage x.vm fte.owner vpage = some fte.frame := by
  have hrole : x.ledger.role pid = .revoking (fte.owner, vpage) fte.frame := by
    show (x.pc pid).role = _
    rw [hpc]
    simp [Pc.role, hcleared]
  exact (hok.revoking hrole).1

/-- `file_write_at`. -/
theorem Outlined.of_writeFile {grow : Bool} (hok : x.ledger.Ok)
    (hmap : MappingsOk x.vm st) (h : Outlined x st)
    (hpc : x.pc pid = .evict page existing fte vpage .writeFile)
    (hs : x.vm.spte fte.owner vpage = some e) :
    let r := fileWriteAt x.vm e.file ((x.vm.mem fte.frame).bytes e.readBytes) e.ofs grow
    Outlined (x.goto pid r.2 (.evict page existing fte vpage
      (if r.1 ≠ e.readBytes then .reinsert else .clearFile))) st := by
  intro r
  obtain ⟨g, h⟩ := h
  have hside : ∀ off < PGSIZE, (view x.vm st g off).Revoking pid fte.owner vpage ∧
      e.mapping.isSome = true := by
    intro off hoff
    obtain ⟨-, hrev, e', he', hm⟩ := (h off hoff).evictOk hpc
    rw [show (view x.vm st g off).spte fte.owner vpage = some e from hs] at he'
    cases he'
    exact ⟨hrev, hm⟩
  have hm := (hside 0 (by decide)).2
  obtain ⟨m, hm'⟩ := Option.isSome_iff_exists.mp hm
  refine ⟨g, fun off hoff => ?_⟩
  rcases fileWriteAt_eq x.vm e.file ((x.vm.mem fte.frame).bytes e.readBytes) e.ofs grow with
    hr | ⟨-, hr⟩
  · have hr : r = (0, x.vm) := hr
    rw [hr, Machine.goto]
    split
    · exact (h off hoff).giveUp hpc rfl (hside off hoff).1
    · -- nothing was written because the page has no bytes in the file
      rename_i hzero
      refine (h off hoff).writeFile hpc ?_ fun _ _ _ _ _ _ _ => rfl
      intro b hb
      have := (hmap.stored _ _ e m off hs hm' (by rw [show st _ _ off = some b from hb]; simp)).1
      simp only [ne_eq, not_not] at hzero
      omega
  · have hr : r = _ := hr
    rw [hr, Machine.goto, PageData.bytes_length, if_neg (by simp), view_setFile]
    refine (h off hoff).writeFile hpc ?_ ?_
    · intro b hb
      have hread := (hmap.stored _ _ e m off hs hm' (by rw [show st _ _ off = some b from hb]; simp)).1
      simp only [fileByte, State.spte_setFile, hs]
      rw [filePage_writeBack rfl _ hread]
      exact (h off hoff).base.mapped _ _ _ b (Machine.map_of_revoking hok hpc rfl) hb
    · intro q t hne hst e' he' hm₁
      exact hmap.fileByte_writeBack hs hm hne hst he' hm₁ hoff

/-- `bitmap_scan_and_flip`. -/
theorem Outlined.of_takeSlot {b : List Bool} (h : Outlined x st)
    (hpc : x.pc pid = .evict page existing fte vpage .takeSlot) (hb : x.vm.swapSlots = some b) :
    let r := match bitmapScanAndFlip b 0 1 false with
      | none => (x.vm, EvictPc.reinsert)
      | some (index, b') => (x.vm.setSwapSlots b', EvictPc.copyOut index)
    Outlined (x.goto pid r.1 (.evict page existing fte vpage r.2)) st := by
  obtain ⟨g, h⟩ := h
  cases hscan : bitmapScanAndFlip b 0 1 false with
  | none => exact ⟨g, fun off hoff => (h off hoff).giveUp hpc rfl ((h off hoff).evictOk hpc).2.1⟩
  | some r =>
    obtain ⟨i, b'⟩ := r
    obtain ⟨hfree, rfl⟩ := bitmapScanAndFlip_some hscan
    have hlt : i < b.length := (List.getElem?_eq_some_iff.mp hfree).1
    refine ⟨{ g with own := update g.own i (some (.evictor pid)) }, fun off hoff => ?_⟩
    rw [Machine.goto, view_setSwapSlots]
    refine (h off hoff).takeSlot hpc ?_ ?_
    · rintro ⟨b', hb', hi⟩
      rw [hb] at hb'
      cases hb'
      rw [hfree] at hi
      cases hi
    · intro j
      show (b.set i true)[j]? = some true ↔ j = i ∨ SlotUsed x.vm j
      simp only [SlotUsed, hb, Option.some.injEq, exists_eq_left']
      by_cases hj : j = i
      · subst hj
        simp [hlt]
      · simp [List.getElem?_set_ne (Ne.symm hj), hj]

theorem Outlined.of_evict {pc : EvictPc} (hok : x.ledger.Ok) (hmap : MappingsOk x.vm st)
    (h : Outlined x st) (hpc : x.pc pid = .evict page existing fte vpage pc)
    (hn : runNext x pid a = some y) : Outlined y st := by
  simp only [runNext, hpc] at hn
  obtain ⟨r, hr, rfl⟩ := Option.map_eq_some_iff.mp hn
  have hmapped := Machine.map_of_revoking hok hpc
  have hview := h
  obtain ⟨g, hg⟩ := hview
  cases pc with
  | testDirty =>
    cases hr
    exact ⟨g, fun off hoff => (hg off hoff).testDirty hpc⟩
  | testSource dirty =>
    obtain ⟨e, hs, rfl⟩ := Option.map_eq_some_iff.mp hr
    exact ⟨g, fun off hoff => (hg off hoff).testSource hpc hs⟩
  | writeFile =>
    obtain ⟨e, hs, rfl⟩ := Option.map_eq_some_iff.mp hr
    exact h.of_writeFile hok hmap hpc hs
  | clearFile =>
    cases hr
    refine .goto (g := { g with
      rev := updPage g.rev fte.owner vpage none
      unl := updPage g.unl fte.owner vpage (some pid) }) fun off hoff => ?_
    rw [view_clear (by simp [hmapped rfl])]
    exact (hg off hoff).clearFile hpc
  | unloadFile =>
    obtain ⟨e, hs, rfl⟩ := Option.map_eq_some_iff.mp hr
    exact .setEntry (g := { g with unl := updPage g.unl fte.owner vpage none }) hs
      ⟨rfl, rfl, rfl, rfl, rfl⟩ fun off hoff => (hg off hoff).unloadFile hpc hs
  | setFile =>
    obtain ⟨e, hs, rfl⟩ := Option.map_eq_some_iff.mp hr
    -- the source of a page that stays in its file is its file already
    have hsource : e.source = .fileBacked :=
      (hg 0 (by decide)).source_of_fileSide ((hg 0 (by decide)).evictOk hpc).2 hs
    have hsame : x.vm.setSpte fte.owner vpage (some { e with source := .fileBacked }) = x.vm :=
      State.setSpte_eq_self _ _ _ (by rw [hs, ← hsource])
    refine .goto (g := g) fun off hoff => ?_
    rw [hsame]
    exact (hg off hoff).setFile hpc
  | dropSlot =>
    obtain ⟨e, hs, rfl⟩ := Option.map_eq_some_iff.mp hr
    exact .setEntry hs ⟨rfl, rfl, rfl, rfl, rfl⟩ fun off hoff => (hg off hoff).dropSlot hpc hs
  | takeSlot =>
    obtain ⟨b, hb, rfl⟩ := Option.map_eq_some_iff.mp hr
    have htake := h.of_takeSlot hpc hb
    cases hscan : bitmapScanAndFlip b 0 1 false <;> simpa only [hscan] using htake
  | copyOut index =>
    cases hr
    refine .goto (g := g) fun off hoff => ?_
    rw [view_writeToBlock _ hoff]
    exact (hg off hoff).copyOut hpc (hmapped rfl)
  | setSlot index =>
    obtain ⟨e, hs, rfl⟩ := Option.map_eq_some_iff.mp hr
    exact .setEntry hs ⟨rfl, rfl, rfl, rfl, rfl⟩ fun off hoff => (hg off hoff).setSlot hpc hs
  | unloadSwap index =>
    obtain ⟨e, hs, rfl⟩ := Option.map_eq_some_iff.mp hr
    exact .setEntry hs ⟨rfl, rfl, rfl, rfl, rfl⟩ fun off hoff => (hg off hoff).unloadSwap hpc hs
  | setSwap index =>
    obtain ⟨e, hs, rfl⟩ := Option.map_eq_some_iff.mp hr
    exact .setEntry hs ⟨rfl, rfl, rfl, rfl, rfl⟩ fun off hoff => (hg off hoff).setSwap hpc hs
  | clearSwap index =>
    cases hr
    refine .goto (g := { g with
      rev := updPage g.rev fte.owner vpage none
      own := update g.own index (some (.page fte.owner vpage)) }) fun off hoff => ?_
    rw [view_clear (by simp [hmapped rfl])]
    exact (hg off hoff).clearSwap hpc
  | reinsert =>
    cases hr
    refine .exit (g := { g with rev := updPage g.rev fte.owner vpage none }) fun off hoff => ?_
    rw [view_setFrameTable]
    exact (hg off hoff).reinsert hpc
  | done =>
    cases hr
    refine ⟨g, fun off hoff => (hg off hoff).move ?_ ?_ ((hg off hoff).evictOk hpc).1⟩
    · intro p k hk
      simp [hpc, Pc.role, EvictPc.cleared] at hk
    · intro s' existing' fte' r' heq
      rw [hpc] at heq
      cases heq

theorem swapReclaimPage_eq (h : swapReclaimPage s e k = some s') :
    ∃ i, e.swapSlotIndex = some i ∧ s' = s.setMem k (readFromBlock s i (s.mem k)) := by
  simp only [swapReclaimPage] at h
  split at h
  · cases h
  · obtain ⟨d, hd, rfl⟩ := Option.map_eq_some_iff.mp h
    simp only [swapReadSlot] at hd
    split at hd
    · rename_i i _ hi
      split at hd
      · cases hd
        exact ⟨i, hi, rfl⟩
      · cases hd
    · cases hd

/-- Nobody else reaches a frame that a process owns. -/
theorem Machine.unreachable_of_owned (hok : x.ledger.Ok) (hown : (x.pc pid).role.owned = some k) :
    (∀ p r, pagedirGetPage x.vm p r ≠ some k) ∧ ∀ q, q ≠ pid → (x.pc q).role ≠ .listed k := by
  refine ⟨fun p r => hok.owned_unmapped (p := (p, r)) hown, fun q hq hlisted => hq ?_⟩
  have hq : (x.ledger.role q).owned = some k := by
    show (x.pc q).role.owned = some k
    rw [hlisted]
    rfl
  exact hok.owned_inj hq hown

theorem view_setUserPool (b : List Bool) (off : Nat) :
    view (s.setUserPool b) st g off = view s st g off :=
  view_congr rfl rfl rfl rfl rfl rfl

/-- `install_page`. -/
theorem Outlined.of_install {reclaimed : Bool} {r : Bool × State}
    (h : Outlined x st) (hpc : x.pc pid = .fill page existing k (.install reclaimed))
    (hs : x.vm.spte pid page = some e)
    (hr : installPage x.vm pid page k e.writable a.pageTable = some r) :
    Outlined (x.goto pid r.2 (.fill page existing k
      (if r.1 then if reclaimed then .freeSlot else .setLoaded
        else .removeFte (!existing)))) st := by
  obtain ⟨g, hg⟩ := h
  have huser : isUserVaddr (page * PGSIZE) = true := by
    by_contra hne
    simp [installPage, hne] at hr
  rcases installPage_cases x.vm pid page k e.writable a.pageTable with h | h | ⟨-, h⟩ <;>
    rw [h] at hr <;> cases hr
  · exact .goto fun off hoff => (hg off hoff).installFails hpc huser
  · refine .goto (g := g) fun off hoff => ?_
    rw [view_setPte]
    exact (hg off hoff).install hpc hs huser

/-- `swap_free_slot`. -/
theorem Outlined.of_freeSlot (h : Outlined x st)
    (hpc : x.pc pid = .fill page existing k .freeSlot) (hs : x.vm.spte pid page = some e) :
    Outlined (x.goto pid (swapFreeSlot x.vm e.swapSlotIndex)
      (.fill page existing k .forgetSlot)) st := by
  obtain ⟨g, hg⟩ := h
  -- without a slot nothing is freed
  have hsame : Outlined (x.goto pid x.vm (.fill page existing k .forgetSlot)) st :=
    .goto fun off hoff => (hg off hoff).fillMove hpc ((hg off hoff).fillOk hpc).1
  simp only [swapFreeSlot]
  split
  · rename_i b i hb hi
    split
    · rename_i hlt
      refine .goto (g := { g with own := update g.own i none }) fun off hoff => ?_
      rw [view_setSwapSlots]
      refine (hg off hoff).freeSlot hpc hs hi fun j => ?_
      show (b.set i false)[j]? = some true ↔ j ≠ i ∧ SlotUsed x.vm j
      simp only [SlotUsed, hb, Option.some.injEq, exists_eq_left']
      by_cases hj : j = i
      · subst hj
        simp [hlt]
      · simp [List.getElem?_set_ne (Ne.symm hj), hj]
    · exact hsame
  · exact hsame

/-- `sup_page_table_add`. -/
theorem Outlined.of_newEntry (h : Outlined x st) (hpc : x.pc pid = .fill page existing k .newEntry)
    (hadd : supPageTableAdd x.vm pid page a.spte = some (e, s)) :
    Outlined (x.goto pid s (.fill page existing k (.setAux false))) st := by
  obtain ⟨g, hg⟩ := h
  simp only [supPageTableAdd] at hadd
  split at hadd
  · -- an entry made since the page was looked up; the page has not been stored to
    cases hadd
    refine .goto (g := g) fun off hoff => ?_
    obtain ⟨hfault, hex⟩ := (hg off hoff).fillOk hpc
    refine (hg off hoff).fillMove hpc ⟨hfault, fun _ b e hb => ?_, by simp⟩
    rw [(hfault.2 hex).1] at hb
    cases hb
  · rename_i hnone
    split at hadd
    · cases hadd
      refine .goto (g := g) fun off hoff => ?_
      rw [view_setSpte]
      exact (hg off hoff).newEntry hpc hnone fun p r => fileByte_setSpte_of_ne
    · cases hadd

/-- Nobody is between clearing the page table entry of the page and marking the
    page as not loaded. -/
def Settled (x : Machine) (pid : Pid) (page : PageNo) : Prop :=
  ∀ q page' existing fte, x.pc q = .evict page' existing fte page .unloadFile → fte.owner ≠ pid

theorem Outlined.of_fill {pc : FillPc} (hok : x.ledger.Ok) (hmap : MappingsOk x.vm st)
    (h : Outlined x st) (hpc : x.pc pid = .fill page existing k pc)
    (hsettled : pc = .testFile → Settled x pid page) (hn : runNext x pid a = some y) :
    Outlined y st := by
  have hrole : (x.pc pid).role = (Pc.fill page existing k pc).role := by rw [hpc]
  simp only [runNext, hpc] at hn
  obtain ⟨r, hr, rfl⟩ := Option.map_eq_some_iff.mp hn
  have hview := h
  obtain ⟨g, hg⟩ := hview
  cases pc with
  | newEntry =>
    simp only [fillStep] at hr
    split at hr
    · cases hr
      exact .goto fun off hoff =>
        (hg off hoff).fillMove hpc ⟨((hg off hoff).fillOk hpc).1, by simp⟩
    · rename_i hadd
      cases hr
      exact h.of_newEntry hpc hadd
  | testFile =>
    obtain ⟨e, hs, rfl⟩ := Option.map_eq_some_iff.mp hr
    refine .goto (g := g) fun off hoff => (hg off hoff).testFile hpc hs ?_
    by_contra hne
    obtain ⟨q, hq⟩ := Option.ne_none_iff_exists'.mp hne
    obtain ⟨page', existing', fte, hpcq, howner⟩ := (hg off hoff).links.unl pid page q hq
    exact hsettled rfl q page' existing' fte hpcq howner
  | readFile =>
    obtain ⟨e, hs, rfl⟩ := Option.map_eq_some_iff.mp hr
    by_cases hlen : (fileReadAt x.vm e.file e.readBytes e.ofs).length ≠ e.readBytes
    · simp only [if_pos hlen]
      exact .goto fun off hoff =>
        (hg off hoff).fillMove hpc ⟨((hg off hoff).fillOk hpc).1, by simp⟩
    · simp only [if_neg hlen]
      obtain ⟨hk, hothers⟩ := Machine.unreachable_of_owned hok (k := k) (by rw [hrole]; rfl)
      refine .goto (g := g) fun off hoff => ?_
      rw [view_setMem]
      refine (hg off hoff).readFile hpc hs hk hothers fun _ hm => ?_
      obtain ⟨m, hm⟩ := Option.isSome_iff_exists.mp hm
      rw [copyIn_clear_eq_filePage (hmap.page _ _ e m hs hm).2.2 (by simpa using hlen) hoff]
      show _ = fileByte x.vm off pid page
      rw [fileByte, hs]
  | testSwap =>
    obtain ⟨e, hs, rfl⟩ := Option.map_eq_some_iff.mp hr
    exact .goto fun off hoff => (hg off hoff).testSwap hpc hs
  | reclaim =>
    obtain ⟨e, hs, rfl⟩ := Option.map_eq_some_iff.mp hr
    obtain ⟨hk, hothers⟩ := Machine.unreachable_of_owned hok (k := k) (by rw [hrole]; rfl)
    cases hread : swapReclaimPage x.vm e k with
    | none =>
      exact .goto fun off hoff =>
        (hg off hoff).fillMove hpc ⟨((hg off hoff).fillOk hpc).1, by simp⟩
    | some s =>
      obtain ⟨i, hi, rfl⟩ := swapReclaimPage_eq hread
      refine .goto (g := g) fun off hoff => ?_
      rw [view_setMem, readFromBlock_apply _ _ _ hoff]
      exact (hg off hoff).reclaim hpc hs hk hothers hi
  | setReclaimed =>
    obtain ⟨e, hs, rfl⟩ := Option.map_eq_some_iff.mp hr
    exact .goto fun off hoff => (hg off hoff).setReclaimed hpc hs
  | setAux reclaimed =>
    cases hr
    refine .goto (g := g) fun off hoff => ?_
    rw [frameTableSetAux, view_setFrameTable]
    have hready : (view x.vm st g off).Ready pid page existing k reclaimed :=
      (hg off hoff).fillOk hpc
    exact (hg off hoff).fillMove hpc hready
  | install reclaimed =>
    obtain ⟨e, hs, hr⟩ := Option.bind_eq_some_iff.mp hr
    obtain ⟨i, hi, rfl⟩ := Option.map_eq_some_iff.mp hr
    exact h.of_install hpc hs hi
  | freeSlot =>
    obtain ⟨e, hs, rfl⟩ := Option.map_eq_some_iff.mp hr
    exact h.of_freeSlot hpc hs
  | forgetSlot =>
    obtain ⟨e, hs, rfl⟩ := Option.map_eq_some_iff.mp hr
    exact .setEntry hs ⟨rfl, rfl, rfl, rfl, rfl⟩ fun off hoff => (hg off hoff).forgetSlot hpc hs
  | backToFile =>
    obtain ⟨e, hs, rfl⟩ := Option.map_eq_some_iff.mp hr
    -- the source of a page of a mapping is its file already
    have hsource : (if e.mapping.isSome then PageSource.fileBacked else e.source) = e.source := by
      split
      · exact ((hg 0 (by decide)).base.kind _ _ e hs ‹_›).symm
      · rfl
    refine .goto (g := g) fun off hoff => ?_
    simp only [hsource]
    rw [State.setSpte_eq_self _ _ _ hs]
    have hinstalled : (view x.vm st g off).Installed pid page := (hg off hoff).fillOk hpc
    exact (hg off hoff).fillMove hpc fun _ => hinstalled
  | setLoaded =>
    obtain ⟨e, hs, rfl⟩ := Option.map_eq_some_iff.mp hr
    exact .setEntry hs ⟨rfl, rfl, rfl, rfl, rfl⟩ fun off hoff => (hg off hoff).setLoaded hpc hs
  | removeFte removeSpte =>
    cases hr
    refine .goto (g := g) fun off hoff => ?_
    rw [frameTableRemove, view_setFrameTable]
    obtain ⟨hfault, hremove⟩ := (hg off hoff).fillOk hpc
    cases removeSpte with
    | true => exact (hg off hoff).fillMove hpc ⟨hfault, hremove rfl⟩
    | false => exact (hg off hoff).fillMove hpc trivial
  | removeSpte =>
    cases hr
    refine .goto (g := g) fun off hoff => ?_
    rw [view_setSpte]
    exact (hg off hoff).removeSpte hpc fun p r => fileByte_setSpte_of_ne
  | freePage =>
    obtain ⟨s, hs, rfl⟩ := Option.map_eq_some_iff.mp hr
    obtain ⟨hk, hothers⟩ := Machine.unreachable_of_owned hok (k := k) (by rw [hrole]; rfl)
    rw [pallocFreePage_eq hs]
    refine .exit (g := g) fun off hoff => ?_
    rw [view_setMem, view_setUserPool]
    exact (hg off hoff).writeMem (by simp [hpc]) hk hothers trivial

theorem Outlined.of_find {f : PageFault} (h : Outlined x st) (hpc : x.pc pid = .find f)
    (hn : runNext x pid a = some y) : Outlined y st := by
  simp only [runNext, hpc] at hn
  obtain ⟨g, hg⟩ := h
  have hplain : ∀ s existing fte r cpc, x.pc pid ≠ .evict s existing fte r cpc := by simp [hpc]
  have hexit : Outlined (x.exit pid x.vm) st :=
    .exit fun off hoff =>
      (hg off hoff).plainStep hplain rfl rfl (hg off hoff).base (fun _ _ => id) trivial
  split at hn
  · cases hn
    exact hexit
  · rename_i hp
    split at hn
    · cases hn
      exact hexit
    · cases hn
      refine .goto (g := g) fun off hoff => ?_
      refine (hg off hoff).plainStep hplain rfl rfl (hg off hoff).base (fun _ _ => id) ⟨?_, ?_⟩
      · intro huser
        have hq := (hg off hoff).pcs pid
        rw [hpc] at hq
        refine hq (by simpa using hp) ?_
        -- the page begins below the end of user memory, which is the end of a page
        simp only [isUserVaddr, decide_eq_true_eq, PHYS_BASE, PGSIZE] at huser ⊢
        omega
      · intro hex
        have hnone : x.vm.spte pid (f.faultAddr / PGSIZE) = none := by simpa using hex
        refine ⟨?_, fun e he => ?_⟩
        · by_contra hst
          obtain ⟨e, he, -⟩ := (hg off hoff).base.stored _ _ hst
          rw [show (view x.vm st g off).spte _ _ = none from hnone] at he
          cases he
        · rw [show (view x.vm st g off).spte _ _ = none from hnone] at he
          cases he

/-- `palloc_get_page`. -/
theorem Outlined.of_getPage (hok : x.ledger.Ok) (h : Outlined x st)
    (hpc : x.pc pid = .getPage page existing) (hn : runNext x pid a = some y) :
    Outlined y st := by
  simp only [runNext, hpc] at hn
  obtain ⟨g, hg⟩ := h
  have hfault : ∀ off < PGSIZE, (view x.vm st g off).Faulting pid page existing := by
    intro off hoff
    have hq := (hg off hoff).pcs pid
    rwa [hpc] at hq
  split at hn
  · rename_i k s hk
    cases hn
    obtain ⟨⟨i, b⟩, hscan, heq⟩ := Option.map_eq_some_iff.mp hk
    obtain ⟨hfree, rfl⟩ := bitmapScanAndFlip_some hscan
    cases heq
    -- nobody has a frame that is free
    obtain ⟨hmap, hown, -⟩ := hok.fresh (k := i) (by simp [Machine.ledger, frameLedger, hfree])
    refine .goto (g := g) fun off hoff => ?_
    rw [view_setMem, view_setUserPool]
    refine (hg off hoff).writeMem (by simp [hpc]) (fun p r => hmap (p, r)) ?_ (hfault off hoff)
    intro q _ hq
    refine hown q ?_
    show (x.pc q).role.owned = some i
    rw [hq]
    rfl
  · cases hn
    exact .goto fun off hoff => (hg off hoff).plainStep (by simp [hpc]) rfl rfl
      (hg off hoff).base (fun _ _ => id) (hfault off hoff)

/-- `frame_table_pop_lru` of an entry that is installed. -/
theorem Outlined.of_pop (hok : x.ledger.Ok) (h : Outlined x st)
    (hpc : x.pc pid = .popLru page existing) (hvictim : victimInstalled x (.run pid a) = true)
    (hn : runNext x pid a = some y) : Outlined y st := by
  simp only [runNext, hpc] at hn
  obtain ⟨g, hg⟩ := h
  cases hpop : frameTablePop x.vm a.victim with
  | none =>
    rw [hpop] at hn
    cases hn
    exact .exit fun off hoff => (hg off hoff).plainStep (by simp [hpc]) rfl rfl
      (hg off hoff).base (fun _ _ => id) trivial
  | some r =>
    obtain ⟨fte, s⟩ := r
    simp only [victimInstalled, hpc, hpop] at hvictim
    obtain ⟨l, rfl, hl, hev⟩ := frameTablePop_perm hpop
    obtain ⟨vpage, haux, hmap⟩ := (Option.any_eq_true _ _).mp hvictim
    have hmap : pagedirGetPage x.vm fte.owner vpage = some fte.frame := by simpa using hmap
    simp only [hpop, haux] at hn
    cases hn
    simp only [evictable, haux, Option.bind_some, Bool.and_eq_true] at hev
    obtain ⟨e, hs, hload⟩ := (Option.any_eq_true _ _).mp hev.2
    refine .goto (g := { g with rev := updPage g.rev fte.owner vpage (some pid) })
      fun off hoff => ?_
    rw [view_setFrameTable]
    refine (hg off hoff).pop hpc ?_ ?_ hs hload
    · show pagedirGetPage x.vm fte.owner vpage ≠ none
      simp [hmap]
    · -- a page that is being evicted is not in the frame table
      by_contra hne
      obtain ⟨q, hq⟩ := Option.ne_none_iff_exists'.mp hne
      obtain ⟨k, hk⟩ := (hg off hoff).links.rev _ _ q hq
      obtain ⟨hk, hnot⟩ := hok.revoking (a := q) hk
      have hk : pagedirGetPage x.vm fte.owner vpage = some k := hk
      rw [hmap] at hk
      cases hk
      exact hnot (List.mem_map_of_mem (hl.mem_iff.mpr (by simp)))

theorem Outlined.of_add (h : Outlined x st) (hpc : x.pc pid = .add page existing k)
    (hn : runNext x pid a = some y) : Outlined y st := by
  simp only [runNext, hpc, frameTableAdd] at hn
  obtain ⟨g, hg⟩ := h
  have hplain : ∀ s existing fte r cpc, x.pc pid ≠ .evict s existing fte r cpc := by simp [hpc]
  split at hn
  · cases hn
    exact .goto fun off hoff =>
      (hg off hoff).plainStep hplain rfl rfl (hg off hoff).base (fun _ _ => id) trivial
  · rename_i s hadd
    cases hn
    split at hadd
    · cases hadd
      refine .goto (g := g) fun off hoff => ?_
      rw [view_setFrameTable]
      refine (hg off hoff).plainStep hplain rfl rfl (hg off hoff).base (fun _ _ => id) ?_
      have hq := (hg off hoff).pcs pid
      rw [hpc] at hq
      cases existing with
      | true => exact hq
      | false => exact ⟨hq, rfl⟩
    · cases hadd

end

end Pintos.Vm
