/-
  Pintos.Vm.Shape

  The structural invariants of virtual memory, and that every effect keeps
  them: a supplemental entry is marked loaded exactly when its page is present;
  present pages, frame table entries and used frames correspond; entries have
  one of the shapes the code gives them; swapped-out pages hold slots of their
  own; an executable is write-denied while a process runs it.
-/

import Pintos.Vm.Effect

namespace Pintos.Vm

open Pintos.Base Pintos.Lib Function

variable {l : List FrameTableEntry} {b : List Bool} {h' : Option Frame}
  {x : Option SupPageTableEntry} {f : FileId}

/-! ## Frames -/

/-- Present pages, the frame table and the pool agree; `h` is the frame held by
    the step under way. -/
structure FramesOk (s : State) (h : Option Frame) : Prop where
  loaded : ∀ pid page, (s.pte pid page).present = true ↔
    ∃ e, s.spte pid page = some e ∧ e.isLoaded = true
  writable : ∀ pid page e, s.spte pid page = some e → (s.pte pid page).present = true →
    (s.pte pid page).writable = e.writable
  frame : ∀ pid page, (s.pte pid page).present = true →
    s.userPool[(s.pte pid page).frame]? = some true ∧
      ⟨(s.pte pid page).frame, pid, some page⟩ ∈ s.frameTable ∧
      h ≠ some (s.pte pid page).frame
  table : ∀ fte ∈ s.frameTable, ∃ page, fte.aux = some page ∧
    (s.pte fte.owner page).present = true ∧ (s.pte fte.owner page).frame = fte.frame
  nodup : (s.frameTable.map (·.frame)).Nodup
  held : ∀ k, h = some k → s.userPool[k]? = some true

namespace FramesOk

variable {s : State} {h : Option Frame} {pid q : Pid} {page r : PageNo} {k : Frame}

/-- The entry of a frame is unique. -/
theorem entry_unique (hs : FramesOk s h) {x y : FrameTableEntry} (hx : x ∈ s.frameTable)
    (hy : y ∈ s.frameTable) (hxy : x.frame = y.frame) : x = y :=
  List.inj_on_of_nodup_map hs.nodup hx hy hxy

/-- Different present pages have different frames. -/
theorem frame_inj (hs : FramesOk s h) (hp : (s.pte pid page).present = true)
    (hq : (s.pte q r).present = true) (hf : (s.pte pid page).frame = (s.pte q r).frame) :
    pid = q ∧ page = r := by
  have := hs.entry_unique (hs.frame pid page hp).2.1 (hs.frame q r hq).2.1 hf
  simp only [FrameTableEntry.mk.injEq, Option.some.injEq] at this
  exact ⟨this.2.1, this.2.2⟩

/-- A page without a loaded entry is not present. -/
theorem not_present (hs : FramesOk s h) (hn : ∀ e, s.spte pid page = some e → e.isLoaded = false) :
    (s.pte pid page).present = false := by
  by_contra hp
  obtain ⟨e, he, hl⟩ := (hs.loaded pid page).mp (by simpa using hp)
  simp [hn e he] at hl

/-- The entry of a present page is loaded. -/
theorem isLoaded (hs : FramesOk s h) {e : SupPageTableEntry} (he : s.spte pid page = some e)
    (hp : (s.pte pid page).present = true) : e.isLoaded = true := by
  obtain ⟨e', he', hl⟩ := (hs.loaded pid page).mp hp
  rw [he] at he'
  cases he'
  exact hl

theorem present (hs : FramesOk s h) {e : SupPageTableEntry} (he : s.spte pid page = some e)
    (hl : e.isLoaded = true) : (s.pte pid page).present = true :=
  (hs.loaded pid page).mpr ⟨e, he, hl⟩

/-- The frame table has no entry for a held frame. -/
theorem held_not_mem (hs : FramesOk s (some k)) : k ∉ s.frameTable.map (·.frame) := by
  intro hk
  obtain ⟨fte, hmem, rfl⟩ := List.mem_map.mp hk
  obtain ⟨page, -, hp, hf⟩ := hs.table fte hmem
  exact (hs.frame _ _ hp).2.2 (by rw [hf])

/-- What a frame table entry says about its page. -/
theorem of_mem (hs : FramesOk s h) (hm : ⟨k, pid, some page⟩ ∈ s.frameTable) :
    (s.pte pid page).present = true ∧ (s.pte pid page).frame = k := by
  obtain ⟨page', ha, hp, hf⟩ := hs.table _ hm
  cases ha
  exact ⟨hp, hf⟩

/-- Mapping the held frame. -/
theorem mapFrame (hs : FramesOk s (some k)) {e : SupPageTableEntry}
    (hp : (s.pte pid page).present = false) (he : e.isLoaded = true) :
    FramesOk (s.mapFrame pid page k e) none where
  loaded q r := by
    by_cases hqr : q = pid ∧ r = page
    · simp [hqr, he]
    · simp [hqr, hs.loaded q r]
  writable q r e' := by
    by_cases hqr : q = pid ∧ r = page
    · simp only [State.spte_mapFrame, State.pte_mapFrame, if_pos hqr]
      rintro ⟨⟩ -
      rfl
    · simpa [hqr] using hs.writable q r e'
  frame q r := by
    by_cases hqr : q = pid ∧ r = page
    · simp only [State.pte_mapFrame, if_pos hqr]
      intro _
      exact ⟨hs.held k rfl, by simp [State.mapFrame, State.setPte, State.setSpte, State.setProc,
        State.setFrameTable, hqr], by simp⟩
    · simp only [State.pte_mapFrame, if_neg hqr]
      intro hpr
      obtain ⟨hu, hm, -⟩ := hs.frame q r hpr
      exact ⟨hu, List.mem_append_left _ hm, by simp⟩
  table fte hm := by
    rcases List.mem_append.mp hm with hm | hm
    · obtain ⟨r, ha, hpr, hf⟩ := hs.table fte hm
      have hne : ¬ (fte.owner = pid ∧ r = page) := by
        rintro ⟨rfl, rfl⟩
        simp [hp] at hpr
      exact ⟨r, ha, by simpa [hne] using hpr, by simpa [hne] using hf⟩
    · rw [List.mem_singleton] at hm
      subst hm
      exact ⟨page, rfl, by simp, by simp⟩
  nodup := by
    show ((s.frameTable ++ [_]).map FrameTableEntry.frame).Nodup
    rw [List.map_append, List.nodup_append]
    refine ⟨hs.nodup, by simp, ?_⟩
    intro a ha b hb hab
    rw [List.map_singleton, List.mem_singleton] at hb
    have hak : a = k := hab.trans hb
    exact hs.held_not_mem (hak ▸ ha)
  held := by simp

/-- Unmapping a page makes its frame the held one. -/
theorem unmapFrame (hs : FramesOk s none)
    (hl : s.frameTable.Perm (⟨k, pid, some page⟩ :: l)) {e : Option SupPageTableEntry}
    (he : ∀ x, e = some x → x.isLoaded = false) :
    FramesOk (s.unmapFrame l pid page e) (some k) := by
  have hmem : ⟨k, pid, some page⟩ ∈ s.frameTable := hl.symm.subset (List.mem_cons_self ..)
  obtain ⟨hp, hk⟩ := hs.of_mem hmem
  have hnodup : (k :: l.map (·.frame)).Nodup := (hl.map FrameTableEntry.frame).nodup_iff.mp hs.nodup
  have hother : ∀ {q r}, (s.pte q r).present = true → ¬ (q = pid ∧ r = page) →
      (s.pte q r).frame ≠ k := by
    intro q r hqr hne hf
    exact hne (hs.frame_inj hqr hp (by rw [hf, hk]))
  constructor
  case loaded =>
    intro q r
    by_cases hqr : q = pid ∧ r = page
    · simp only [State.pte_unmapFrame, State.spte_unmapFrame, if_pos hqr]
      constructor
      · intro h; cases h
      · rintro ⟨x, hx, hl⟩
        simp [he x hx] at hl
    · simpa [hqr] using hs.loaded q r
  case writable =>
    intro q r e'
    by_cases hqr : q = pid ∧ r = page
    · simp [hqr]
    · simpa [hqr] using hs.writable q r e'
  case frame =>
    intro q r
    by_cases hqr : q = pid ∧ r = page
    · simp [hqr]
    · simp only [State.pte_unmapFrame, if_neg hqr]
      intro hpr
      obtain ⟨hu, hm, -⟩ := hs.frame q r hpr
      refine ⟨hu, ?_, ?_⟩
      · rcases List.mem_cons.mp (hl.subset hm) with heq | hm
        · simp only [FrameTableEntry.mk.injEq, Option.some.injEq] at heq
          exact absurd heq.2 hqr
        · exact hm
      · intro hf
        exact hother hpr hqr (Option.some.inj hf).symm
  case table =>
    intro fte hm
    obtain ⟨r, ha, hpr, hf⟩ := hs.table fte (hl.symm.subset (List.mem_cons_of_mem _ hm))
    have hne : ¬ (fte.owner = pid ∧ r = page) := by
      rintro ⟨rfl, rfl⟩
      have : fte.frame ∈ l.map (·.frame) := List.mem_map_of_mem hm
      rw [← hf, hk] at this
      exact (List.nodup_cons.mp hnodup).1 this
    exact ⟨r, ha, by simpa [hne] using hpr, by simpa [hne] using hf⟩
  case nodup => exact (List.nodup_cons.mp hnodup).2
  case held =>
    intro k' hk'
    cases hk'
    exact hk ▸ (hs.frame pid page hp).1

/-- Steps that touch neither the pool nor what pages are present where. -/
theorem congr (hs : FramesOk s h) {s' : State}
    (hpte : ∀ q r, (s'.pte q r).present = (s.pte q r).present ∧
      ((s.pte q r).present = true →
        (s'.pte q r).frame = (s.pte q r).frame ∧ (s'.pte q r).writable = (s.pte q r).writable))
    (hspte : ∀ q r e, e.isLoaded = true → (s'.spte q r = some e ↔ s.spte q r = some e))
    (hpool : s'.userPool = s.userPool) (htable : s'.frameTable.Perm s.frameTable) :
    FramesOk s' h where
  loaded q r := by
    rw [(hpte q r).1, hs.loaded]
    constructor
    · rintro ⟨e, he, hl⟩
      exact ⟨e, (hspte q r e hl).mpr he, hl⟩
    · rintro ⟨e, he, hl⟩
      exact ⟨e, (hspte q r e hl).mp he, hl⟩
  writable q r e he hp := by
    rw [(hpte q r).1] at hp
    rw [((hpte q r).2 hp).2]
    obtain ⟨e', he', hl⟩ := (hs.loaded q r).mp hp
    have heq : some e = some e' := by rw [← he, (hspte q r e' hl).mpr he']
    cases heq
    exact hs.writable q r e he' hp
  frame q r hp := by
    rw [(hpte q r).1] at hp
    rw [((hpte q r).2 hp).1, hpool]
    obtain ⟨hu, hm, hh⟩ := hs.frame q r hp
    exact ⟨hu, htable.symm.subset hm, hh⟩
  table fte hm := by
    obtain ⟨r, ha, hp, hf⟩ := hs.table fte (htable.subset hm)
    exact ⟨r, ha, (hpte _ _).1.trans hp, ((hpte _ _).2 hp).1.trans hf⟩
  nodup := (htable.map FrameTableEntry.frame).nodup_iff.mpr hs.nodup
  held := by rw [hpool]; exact hs.held

/-- Changing the pool at frames no page is mapped to. -/
theorem setUserPool (hs : FramesOk s h) (hpool : ∀ q r, (s.pte q r).present = true →
      b[(s.pte q r).frame]? = some true ∧ h' ≠ some (s.pte q r).frame)
    (hheld : ∀ k, h' = some k → b[k]? = some true) : FramesOk (s.setUserPool b) h' where
  loaded := hs.loaded
  writable := hs.writable
  frame q r hp := ⟨(hpool q r hp).1, (hs.frame q r hp).2.1, (hpool q r hp).2⟩
  table := hs.table
  nodup := hs.nodup
  held := hheld

end FramesOk

/-! ## Supplemental entries -/

/-- The shapes of an entry, for a process in the given phase with the given
    executable and next mapping id. -/
structure EntryOk (phase : Phase) (exe : Option FileId) (nextMapid : Nat)
    (e : SupPageTableEntry) : Prop where
  live : phase ≠ .dead
  loading : phase = .loading → e.isLoaded = false ∧ e.source = .fileBacked ∧ e.mapping = none
  zero : e.source = .zero → e.isLoaded = true
  bytes : e.source = .fileBacked → e.readBytes + e.zeroBytes = PGSIZE
  exe : e.source = .fileBacked → e.mapping = none → exe = some e.file
  mapping : ∀ m, e.mapping = some m → e.source = .fileBacked ∧ e.file = m.file ∧
    e.writable = true ∧ e.ofs % PGSIZE = 0 ∧ m.mapid < nextMapid

namespace EntryOk

variable {ph : Phase} {exe : Option FileId} {n : Nat} {e : SupPageTableEntry}

theorem load (he : EntryOk ph exe n e) (hph : ph = .running) :
    EntryOk ph exe n { e with isLoaded := true } :=
  { he with
    loading := fun h => by rw [hph] at h; cases h
    zero := fun _ => rfl }

theorem unload (he : EntryOk ph exe n e) (hsource : e.source = .fileBacked) :
    EntryOk ph exe n
      { e with isLoaded := false, source := .fileBacked, swapSlotIndex := none } :=
  { he with
    loading := fun h => ⟨rfl, rfl, (he.loading h).2.2⟩
    zero := fun h => by cases h
    bytes := fun _ => he.bytes hsource
    exe := fun _ => he.exe hsource
    mapping := fun m hm => ⟨rfl, (he.mapping m hm).2⟩ }

theorem swapOut (he : EntryOk ph exe n e) (hload : e.isLoaded = true) (hmap : e.mapping = none)
    (i : Nat) :
    EntryOk ph exe n { e with swapSlotIndex := some i, isLoaded := false, source := .swap } :=
  { he with
    loading := fun h => by have := (he.loading h).1; simp [hload] at this
    zero := fun h => by cases h
    bytes := fun h => by cases h
    exe := fun h => by cases h
    mapping := fun m hm => by rw [hmap] at hm; cases hm }

theorem swapIn (he : EntryOk ph exe n e) (hph : ph = .running) :
    EntryOk ph exe n { e with isLoaded := true, swapSlotIndex := none } :=
  { he with
    loading := fun h => by rw [hph] at h; cases h
    zero := fun _ => rfl }

end EntryOk

/-- Every entry has one of the shapes, and the pages of one mapping are at
    different offsets of its file. -/
structure EntriesOk (s : State) : Prop where
  entry : ∀ pid page e, s.spte pid page = some e →
    EntryOk (s.procs pid).phase (s.procs pid).exe (s.procs pid).nextMapid e
  ofs_inj : ∀ pid page r e e' m, s.spte pid page = some e → s.spte pid r = some e' →
    e.mapping = some m → e'.mapping = some m → e.ofs = e'.ofs → page = r

namespace EntriesOk

variable {s s' : State} {pid : Pid} {page : PageNo}

/-- No entry belongs to the mapping that will be made next. -/
theorem not_new (hs : EntriesOk s) (r : PageNo) (e : SupPageTableEntry) (m : MemoryMapping)
    (he : s.spte pid r = some e) (hm : e.mapping = some m) :
    m.mapid ≠ (s.procs pid).nextMapid :=
  Nat.ne_of_lt ((hs.entry pid r e he).mapping m hm).2.2.2.2

/-- One entry changes: the new one has to be in shape and at an offset no other
    page of its mapping has. -/
theorem change (hs : EntriesOk s)
    (hspte : ∀ q r, s'.spte q r = if q = pid ∧ r = page then x else s.spte q r)
    (hproc : ∀ q, (s'.procs q).phase = (s.procs q).phase ∧ (s'.procs q).exe = (s.procs q).exe ∧
      (s'.procs q).nextMapid = (s.procs q).nextMapid)
    (hx : ∀ e, x = some e →
      EntryOk (s.procs pid).phase (s.procs pid).exe (s.procs pid).nextMapid e)
    (hofs : ∀ e m, x = some e → e.mapping = some m → ∀ r e', r ≠ page → s.spte pid r = some e' →
      e'.mapping = some m → e'.ofs ≠ e.ofs) : EntriesOk s' where
  entry q r e he := by
    rw [(hproc q).1, (hproc q).2.1, (hproc q).2.2]
    rw [hspte] at he
    split at he
    · rename_i hqr
      rw [hqr.1]
      exact hx e he
    · exact hs.entry q r e he
  ofs_inj q r r' e e' m he he' hm hm' heq := by
    rw [hspte] at he he'
    split at he <;> split at he'
    · rename_i h1 h2
      rw [h1.2, h2.2]
    · rename_i h1 h2
      have hne : r' ≠ page := fun h => h2 ⟨h1.1, h⟩
      exact absurd heq.symm (hofs e m he hm r' e' hne (h1.1 ▸ he') hm')
    · rename_i h1 h2
      have hne : r ≠ page := fun h => h1 ⟨h2.1, h⟩
      exact absurd heq (hofs e' m he' hm' r e hne (h2.1 ▸ he) hm)
    · exact hs.ofs_inj q r r' e e' m he he' hm hm' heq

/-- An entry changes but stays where it was in its mapping. -/
theorem update (hs : EntriesOk s) {e x : SupPageTableEntry} (he : s.spte pid page = some e)
    (hspte : ∀ q r, s'.spte q r = if q = pid ∧ r = page then some x else s.spte q r)
    (hproc : ∀ q, (s'.procs q).phase = (s.procs q).phase ∧ (s'.procs q).exe = (s.procs q).exe ∧
      (s'.procs q).nextMapid = (s.procs q).nextMapid)
    (hx : EntryOk (s.procs pid).phase (s.procs pid).exe (s.procs pid).nextMapid x)
    (hofs : x.ofs = e.ofs) (hm : x.mapping = e.mapping) : EntriesOk s' := by
  refine hs.change hspte hproc (by rintro _ ⟨⟩; exact hx) ?_
  rintro _ m ⟨⟩ hxm r e' hne he' hm' heq
  exact hne (hs.ofs_inj pid r page e' e m he' he hm' (hm ▸ hxm) (heq.trans hofs))

/-- An entry is removed. -/
theorem remove (hs : EntriesOk s)
    (hspte : ∀ q r, s'.spte q r = if q = pid ∧ r = page then none else s.spte q r)
    (hproc : ∀ q, (s'.procs q).phase = (s.procs q).phase ∧ (s'.procs q).exe = (s.procs q).exe ∧
      (s'.procs q).nextMapid = (s.procs q).nextMapid) : EntriesOk s' :=
  hs.change hspte hproc (fun _ h => by cases h) (fun _ _ h => by cases h)

/-- No entry changes; the processes may change in ways the shapes allow. -/
theorem congr (hs : EntriesOk s) (hspte : ∀ q r, s'.spte q r = s.spte q r)
    (hproc : ∀ q e, EntryOk (s.procs q).phase (s.procs q).exe (s.procs q).nextMapid e →
      EntryOk (s'.procs q).phase (s'.procs q).exe (s'.procs q).nextMapid e) : EntriesOk s' where
  entry q r e he := hproc q e (hs.entry q r e (hspte q r ▸ he))
  ofs_inj q r r' e e' m he he' :=
    hs.ofs_inj q r r' e e' m (hspte q r ▸ he) (hspte q r' ▸ he')

end EntriesOk

/-! ## Swap slots -/

/-- The page is swapped out to slot `i`. -/
def SwappedOut (s : State) (pid : Pid) (page : PageNo) (i : Nat) : Prop :=
  ∃ e, s.spte pid page = some e ∧ e.isLoaded = false ∧ e.source = .swap ∧
    e.swapSlotIndex = some i

/-- The bit of slot `i` is set. -/
def SlotUsed (s : State) (i : Nat) : Prop := ∃ b, s.swapSlots = some b ∧ b[i]? = some true

/-- Swapped-out pages have slots, marked used and not shared. -/
structure SlotsOk (s : State) : Prop where
  slot : ∀ pid page e, s.spte pid page = some e → e.isLoaded = false → e.source = .swap →
    ∃ i, e.swapSlotIndex = some i
  used : ∀ pid page i, SwappedOut s pid page i → SlotUsed s i
  inj : ∀ pid page q r i, SwappedOut s pid page i → SwappedOut s q r i → pid = q ∧ page = r

namespace SlotsOk

variable {s s' : State} {pid : Pid} {page : PageNo}

/-- One entry changes: if it becomes swapped out, then to a used slot of its
    own; the slots of the others stay used. -/
theorem change (hs : SlotsOk s)
    (hspte : ∀ q r, s'.spte q r = if q = pid ∧ r = page then x else s.spte q r)
    (hx : ∀ e, x = some e → e.isLoaded = false → e.source = .swap →
      ∃ i, e.swapSlotIndex = some i ∧ SlotUsed s' i ∧ ∀ q r, ¬ SwappedOut s q r i)
    (hused : ∀ q r i, ¬ (q = pid ∧ r = page) → SwappedOut s q r i → SlotUsed s' i) :
    SlotsOk s' := by
  have hother : ∀ {q r i}, ¬ (q = pid ∧ r = page) → (SwappedOut s' q r i ↔ SwappedOut s q r i) := by
    intro q r i hqr
    simp only [SwappedOut, hspte, if_neg hqr]
  have hself : ∀ {q r i}, q = pid ∧ r = page → SwappedOut s' q r i →
      SlotUsed s' i ∧ ∀ q r, ¬ SwappedOut s q r i := by
    rintro q r i hqr ⟨e, he, hl, hsrc, hi⟩
    rw [hspte, if_pos hqr] at he
    obtain ⟨j, hj, hsj⟩ := hx e he hl hsrc
    rw [hi] at hj
    cases hj
    exact hsj
  constructor
  case slot =>
    intro q r e he hl hsrc
    rw [hspte] at he
    split at he
    · obtain ⟨i, hi, -⟩ := hx e he hl hsrc
      exact ⟨i, hi⟩
    · exact hs.slot q r e he hl hsrc
  case used =>
    intro q r i hi
    by_cases hqr : q = pid ∧ r = page
    · exact (hself hqr hi).1
    · exact hused q r i hqr ((hother hqr).mp hi)
  case inj =>
    intro q r q' r' i hi hi'
    by_cases hqr : q = pid ∧ r = page <;> by_cases hqr' : q' = pid ∧ r' = page
    · exact ⟨hqr.1.trans hqr'.1.symm, hqr.2.trans hqr'.2.symm⟩
    · exact absurd ((hother hqr').mp hi') ((hself hqr hi).2 q' r')
    · exact absurd ((hother hqr).mp hi) ((hself hqr' hi').2 q r)
    · exact hs.inj q r q' r' i ((hother hqr).mp hi) ((hother hqr').mp hi')

theorem congr (hs : SlotsOk s) (hspte : ∀ q r, s'.spte q r = s.spte q r)
    (hslots : s'.swapSlots = s.swapSlots) : SlotsOk s' := by
  have hsw : ∀ q r i, SwappedOut s' q r i ↔ SwappedOut s q r i := by
    intro q r i
    simp only [SwappedOut, hspte]
  constructor
  case slot => exact fun q r e he => hs.slot q r e (hspte q r ▸ he)
  case used =>
    intro q r i hi
    simp only [SlotUsed, hslots]
    exact hs.used q r i ((hsw q r i).mp hi)
  case inj =>
    exact fun q r q' r' i hi hi' => hs.inj q r q' r' i ((hsw q r i).mp hi) ((hsw q' r' i).mp hi')

end SlotsOk

/-! ## Write denial -/

/-- The executables that run are write-denied, once for each process. -/
def DenyOk (s : State) : Prop :=
  ∀ f, ∃ l : List Pid, l.Nodup ∧ (∀ pid, pid ∈ l ↔ (s.procs pid).exe = some f) ∧
    l.length ≤ (s.files f).denyWriteCnt

/-- An executable that runs is write-denied. -/
theorem DenyOk.denied {s : State} (h : DenyOk s) {pid : Pid}
    (hexe : (s.procs pid).exe = some f) : (s.files f).denyWriteCnt ≠ 0 := by
  obtain ⟨l, -, hl, hlen⟩ := h f
  have := List.length_pos_of_mem ((hl pid).mpr hexe)
  omega

theorem DenyOk.congr {s s' : State} (h : DenyOk s)
    (hexe : ∀ pid, (s'.procs pid).exe = (s.procs pid).exe)
    (hdeny : ∀ f, (s'.files f).denyWriteCnt = (s.files f).denyWriteCnt) : DenyOk s' := by
  intro f
  obtain ⟨l, hnd, hl, hlen⟩ := h f
  exact ⟨l, hnd, fun pid => by rw [hl, hexe], by rw [hdeny]; exact hlen⟩

/-! ## All together -/

/-- The structural invariant. -/
structure Shape (s : State) (h : Option Frame) : Prop where
  frames : FramesOk s h
  entries : EntriesOk s
  slots : SlotsOk s
  deny : DenyOk s
  /-- A process that does not exist runs no executable. -/
  dead : ∀ pid, (s.procs pid).phase = .dead → (s.procs pid).exe = none

namespace Shape

variable {X : Set FileId} {img : Image} {s : State} {h : Option Frame} {pid : Pid}
  {page : PageNo} {k : Frame}

theorem setMem (hs : Shape s h) (k : Frame) (d : PageData) : Shape (s.setMem k d) h where
  frames := ⟨hs.frames.loaded, hs.frames.writable, hs.frames.frame, hs.frames.table,
    hs.frames.nodup, hs.frames.held⟩
  entries := ⟨hs.entries.entry, hs.entries.ofs_inj⟩
  slots := ⟨hs.slots.slot, hs.slots.used, hs.slots.inj⟩
  deny := hs.deny
  dead := hs.dead

/-- The pool and the held frame change; the rest of the invariant does not see
    them. -/
theorem setUserPool (hs : Shape s h)
    (hf : FramesOk (s.setUserPool b) h') : Shape (s.setUserPool b) h' where
  frames := hf
  entries := ⟨hs.entries.entry, hs.entries.ofs_inj⟩
  slots := ⟨hs.slots.slot, hs.slots.used, hs.slots.inj⟩
  deny := hs.deny
  dead := hs.dead

theorem alloc (hs : Shape s none) (hk : s.userPool[k]? = some false) :
    Shape (s.setUserPool (s.userPool.set k true)) (some k) := by
  have hlt : k < s.userPool.length := (List.getElem?_eq_some_iff.mp hk).1
  refine hs.setUserPool (hs.frames.setUserPool ?_ ?_)
  · intro q r hp
    have hu := (hs.frames.frame q r hp).1
    have hne : k ≠ (s.pte q r).frame := by
      intro heq
      rw [← heq, hk] at hu
      cases hu
    exact ⟨by rwa [List.getElem?_set_ne hne], fun heq => hne (Option.some.inj heq)⟩
  · rintro _ ⟨⟩
    simp [hlt]

theorem free (hs : Shape s (some k)) : Shape (s.setUserPool (s.userPool.set k false)) none := by
  refine hs.setUserPool (hs.frames.setUserPool ?_ (by simp))
  intro q r hp
  obtain ⟨hu, -, hne⟩ := hs.frames.frame q r hp
  exact ⟨by rwa [List.getElem?_set_ne fun heq => hne (congrArg some heq)], by simp⟩

/-- A step that changes frames, entries and slots only. -/
theorem change (hs : Shape s h) {s' : State}
    (hf : FramesOk s' h') (he : EntriesOk s') (hsl : SlotsOk s')
    (hproc : ∀ q, (s'.procs q).phase = (s.procs q).phase ∧ (s'.procs q).exe = (s.procs q).exe)
    (hfiles : s'.files = s.files) : Shape s' h' where
  frames := hf
  entries := he
  slots := hsl
  deny := hs.deny.congr (fun q => (hproc q).2) (fun f => by rw [hfiles])
  dead q hq := by
    rw [(hproc q).2]
    exact hs.dead q ((hproc q).1 ▸ hq)

/-- A page is mapped to the held frame, which may free its slot. -/
theorem mapFrame (hs : Shape s (some k)) {e : SupPageTableEntry} {b : Option (List Bool)}
    (hp : (s.pte pid page).present = false) (hload : e.isLoaded = true)
    (he : EntriesOk (s.mapFrame pid page k e))
    (hused : ∀ q r i, ¬ (q = pid ∧ r = page) → SwappedOut s q r i →
      SlotUsed { s with swapSlots := b } i) :
    Shape (({ s with swapSlots := b } : State).mapFrame pid page k e) none := by
  have hf := hs.frames.mapFrame hp hload
  have hspte : ∀ q r, (({ s with swapSlots := b } : State).mapFrame pid page k e).spte q r =
      if q = pid ∧ r = page then some e else s.spte q r := fun q r => by simp; rfl
  refine hs.change ⟨hf.loaded, hf.writable, hf.frame, hf.table, hf.nodup, hf.held⟩
    ⟨he.entry, he.ofs_inj⟩ (hs.slots.change hspte ?_ hused) ?_ rfl
  · rintro _ ⟨⟩ hl
    rw [hload] at hl
    cases hl
  · intro q
    simp [State.mapFrame, State.setFrameTable]

/-- Entries of a state in which a page was mapped or unmapped. -/
theorem update_mapFrame (hs : Shape s h) {e x : SupPageTableEntry} (he : s.spte pid page = some e)
    (hx : EntryOk (s.procs pid).phase (s.procs pid).exe (s.procs pid).nextMapid x)
    (hofs : x.ofs = e.ofs) (hm : x.mapping = e.mapping) :
    EntriesOk (s.mapFrame pid page k x) :=
  hs.entries.update he (by simp) (by simp [State.mapFrame, State.setFrameTable]) hx hofs hm

/-- The slots of other pages stay used when the page gives its own up. -/
theorem slotUsed_free (hs : Shape s h) {e : SupPageTableEntry} {i : Nat}
    (he : s.spte pid page = some e) (hload : e.isLoaded = false) (hsource : e.source = .swap)
    (hslot : e.swapSlotIndex = some i) (hslots : s.swapSlots = some b) {q : Pid} {r : PageNo}
    {j : Nat} (hqr : ¬ (q = pid ∧ r = page)) (hj : SwappedOut s q r j) :
    SlotUsed { s with swapSlots := some (b.set i false) } j := by
  have hne : i ≠ j := by
    rintro rfl
    exact hqr (hs.slots.inj q r pid page i hj ⟨e, he, hload, hsource, hslot⟩)
  obtain ⟨b', hb', hbit⟩ := hs.slots.used q r j hj
  rw [hslots] at hb'
  cases hb'
  exact ⟨b.set i false, rfl, by rwa [List.getElem?_set_ne hne]⟩

/-- A page is unmapped and its frame held; it may be swapped out to a fresh
    slot. -/
theorem unmapFrame (hs : Shape s none) {s₁ : State}
    (hl : s.frameTable.Perm (⟨k, pid, some page⟩ :: l)) (hx : ∀ e, x = some e → e.isLoaded = false)
    (he : EntriesOk (s.unmapFrame l pid page x))
    (hslot : ∀ e, x = some e → e.isLoaded = false → e.source = .swap →
      ∃ i, e.swapSlotIndex = some i ∧ SlotUsed s₁ i ∧ ∀ q r, ¬ SwappedOut s q r i)
    (hused : ∀ i, SlotUsed s i → SlotUsed s₁ i)
    (hs₁ : s₁ = { s with swapSlots := s₁.swapSlots, swapBlock := s₁.swapBlock }) :
    Shape (s₁.unmapFrame l pid page x) (some k) := by
  obtain ⟨b, d, rfl⟩ : ∃ b d, s₁ = { s with swapSlots := b, swapBlock := d } := ⟨_, _, hs₁⟩
  have hf := hs.frames.unmapFrame hl hx
  refine hs.change ⟨hf.loaded, hf.writable, hf.frame, hf.table, hf.nodup, hf.held⟩
    ⟨he.entry, he.ofs_inj⟩ (hs.slots.change (fun q r => by simp; rfl) hslot ?_) ?_ rfl
  · exact fun q r i _ hi => hused i (hs.slots.used q r i hi)
  · intro q
    simp [State.unmapFrame, State.setFrameTable]

section

variable (hs : Shape s h)

include hs

/-- An unloaded entry that is not swapped out is added or removed. -/
theorem setSpte (hold : ∀ e, s.spte pid page = some e → e.isLoaded = false)
    (hx : ∀ e, x = some e → e.isLoaded = false ∧ e.source = .fileBacked)
    (he : EntriesOk (s.setSpte pid page x)) : Shape (s.setSpte pid page x) h := by
  refine hs.change (hs.frames.congr (by simp) ?_ rfl (.refl _)) he
    (hs.slots.change (fun q r => s.spte_setSpte pid q page r x) ?_ ?_) (by simp) rfl
  · intro q r e hl
    rw [State.spte_setSpte]
    split
    · rename_i hqr
      obtain ⟨rfl, rfl⟩ := hqr
      constructor
      · intro h; simp [(hx e h).1] at hl
      · intro h; simp [hold e h] at hl
    · rfl
  · intro e h _ hsource
    rw [(hx e h).2] at hsource
    cases hsource
  · exact fun q r i _ hi => hs.slots.used q r i hi

theorem addExe {ofs readBytes zeroBytes : Nat} {writable : Bool}
    (hphase : (s.procs pid).phase = .loading) (hexe : (s.procs pid).exe = some f)
    (hspte : s.spte pid page = none) (hbytes : readBytes + zeroBytes = PGSIZE) :
    Shape (s.setSpte pid page (some (.ofFile f ofs readBytes zeroBytes writable))) h := by
  refine hs.setSpte (by simp [hspte]) (by rintro _ ⟨⟩; exact ⟨rfl, rfl⟩)
    (hs.entries.change (fun q r => s.spte_setSpte pid q page r _) (by simp) ?_ ?_)
  · rintro _ ⟨⟩
    exact {
      live := by simp [hphase]
      loading := fun _ => ⟨rfl, rfl, rfl⟩
      zero := fun h => by cases h
      bytes := fun _ => hbytes
      exe := fun _ _ => hexe
      mapping := fun m hm => by cases hm }
  · rintro _ m ⟨⟩ hm
    cases hm

theorem addMapping {m : MemoryMapping} {ofs : Nat}
    (hphase : (s.procs pid).phase = .running) (hspte : s.spte pid page = none)
    (hid : m.mapid < (s.procs pid).nextMapid) (hofs : ofs % PGSIZE = 0)
    (hnew : ∀ r e, s.spte pid r = some e → e.mapping = some m → e.ofs ≠ ofs) :
    Shape (s.setSpte pid page (some (mappingEntry m ofs))) h := by
  have hbytes : pageReadBytes m.length ofs + (PGSIZE - pageReadBytes m.length ofs) = PGSIZE := by
    simp only [pageReadBytes]
    split <;> omega
  refine hs.setSpte (by simp [hspte]) (by rintro _ ⟨⟩; exact ⟨rfl, rfl⟩)
    (hs.entries.change (fun q r => s.spte_setSpte pid q page r _) (by simp) ?_ ?_)
  · rintro _ ⟨⟩
    exact {
      live := by simp [hphase]
      loading := fun h => by simp [hphase] at h
      zero := fun h => by cases h
      bytes := fun _ => hbytes
      exe := fun _ h => by cases h
      mapping := fun m' hm => by cases hm; exact ⟨rfl, rfl, rfl, hofs, hid⟩ }
  · rintro _ m' ⟨⟩ hm r e' - he' hm'
    cases hm
    exact hnew r e' he' hm'

/-- The contents of a file change. -/
theorem setFile {c : List UInt8} :
    Shape (s.setFile f { s.files f with contents := c }) h where
  frames := ⟨hs.frames.loaded, hs.frames.writable, hs.frames.frame, hs.frames.table,
    hs.frames.nodup, hs.frames.held⟩
  entries := ⟨hs.entries.entry, hs.entries.ofs_inj⟩
  slots := ⟨hs.slots.slot, hs.slots.used, hs.slots.inj⟩
  deny := hs.deny.congr (fun _ => rfl) fun g => by
    by_cases hg : g = f
    · subst hg; simp [State.setFile]
    · simp [State.setFile, hg]
  dead := hs.dead

/-- Only the record of one process changes, and no page of it. -/
theorem setProc {p : Process} (hspt : p.supPageTable = (s.procs pid).supPageTable)
    (hpd : p.pagedir = (s.procs pid).pagedir)
    (hexe : p.exe = (s.procs pid).exe) (hdead : p.phase = .dead → (s.procs pid).phase = .dead)
    (hentry : ∀ e, EntryOk (s.procs pid).phase (s.procs pid).exe (s.procs pid).nextMapid e →
      EntryOk p.phase p.exe p.nextMapid e) : Shape (s.setProc pid p) h := by
  have hspte : ∀ q r, (s.setProc pid p).spte q r = s.spte q r := by
    intro q r
    rw [State.spte_setProc]
    split
    · rename_i hq
      rw [hspt, hq]
      rfl
    · rfl
  constructor
  case frames =>
    refine hs.frames.congr ?_ (by simp [hspte]) rfl (.refl _)
    intro q r
    rw [State.pte_setProc]
    split
    · rename_i hq
      rw [hpd, hq]
      exact ⟨rfl, fun _ => ⟨rfl, rfl⟩⟩
    · exact ⟨rfl, fun _ => ⟨rfl, rfl⟩⟩
  case entries =>
    refine hs.entries.congr hspte ?_
    intro q e
    rw [State.procs_setProc]
    split
    · rename_i hq
      subst hq
      exact hentry e
    · exact id
  case slots => exact hs.slots.congr hspte rfl
  case deny =>
    refine hs.deny.congr ?_ (fun _ => rfl)
    intro q
    rw [State.procs_setProc]
    split
    · rename_i hq
      rw [hexe, hq]
    · rfl
  case dead =>
    intro q
    rw [State.procs_setProc]
    split
    · rename_i hq
      subst hq
      intro h
      rw [hexe]
      exact hs.dead q (hdead h)
    · exact hs.dead q

/-- A page table entry changes, but not whether, where and how the page is
    mapped. -/
theorem setPte {t : Pte} (hp : t.present = (s.pte pid page).present)
    (hsame : (s.pte pid page).present = true →
      t.frame = (s.pte pid page).frame ∧ t.writable = (s.pte pid page).writable) :
    Shape (s.setPte pid page t) h := by
  refine hs.change (hs.frames.congr ?_ (by simp) rfl (.refl _))
    (hs.entries.congr (by simp) (by simp)) (hs.slots.congr (by simp) rfl) (by simp) rfl
  intro q r
  rw [State.pte_setPte]
  split
  · rename_i hqr
    obtain ⟨rfl, rfl⟩ := hqr
    exact ⟨hp, hsame⟩
  · exact ⟨rfl, fun _ => ⟨rfl, rfl⟩⟩

/-- A process that does not exist has no entries. -/
theorem spte_dead (hdead : (s.procs pid).phase = .dead) (page : PageNo) :
    s.spte pid page = none := by
  by_contra hne
  obtain ⟨e, he⟩ := Option.ne_none_iff_exists'.mp hne
  exact (hs.entries.entry pid page e he).live hdead

theorem spawn (hdead : (s.procs pid).phase = .dead) :
    Shape ((s.setFile f { s.files f with denyWriteCnt := (s.files f).denyWriteCnt + 1 }).setProc pid
      { phase := .loading, exe := some f }) h := by
  have hspte : ∀ q r, ((s.setFile f
      { s.files f with denyWriteCnt := (s.files f).denyWriteCnt + 1 }).setProc pid
      { phase := .loading, exe := some f }).spte q r = s.spte q r := by
    intro q r
    rw [State.spte_setProc]
    split
    · rename_i hq
      rw [hq, hs.spte_dead hdead]
    · rfl
  have hexe := hs.dead pid hdead
  constructor
  case frames =>
    refine hs.frames.congr ?_ (by simp [hspte]) rfl (.refl _)
    intro q r
    rw [State.pte_setProc]
    split
    · rename_i hq
      subst hq
      have hp : (s.pte q r).present = false :=
        hs.frames.not_present (by simp [hs.spte_dead hdead])
      simp [hp, PageDir.pte]
    · exact ⟨rfl, fun _ => ⟨rfl, rfl⟩⟩
  case entries =>
    constructor
    · intro q r e he
      rw [hspte] at he
      have hq : q ≠ pid := by
        rintro rfl
        simp [hs.spte_dead hdead] at he
      simpa [hq, State.setFile] using hs.entries.entry q r e he
    · exact fun q r r' e e' m he he' =>
        hs.entries.ofs_inj q r r' e e' m (hspte q r ▸ he) (hspte q r' ▸ he')
  case slots => exact hs.slots.congr hspte rfl
  case deny =>
    intro g
    obtain ⟨l, hnd, hl, hlen⟩ := hs.deny g
    by_cases hg : g = f
    · subst hg
      refine ⟨pid :: l, List.nodup_cons.mpr ⟨by simp [hl, hexe], hnd⟩, ?_, ?_⟩
      · intro q
        by_cases hq : q = pid
        · simp [hq]
        · simpa [hq, State.setFile] using hl q
      · simpa [State.setFile, State.setProc] using hlen
    · refine ⟨l, hnd, ?_, by simpa [State.setFile, State.setProc, hg] using hlen⟩
      intro q
      by_cases hq : q = pid
      · subst hq
        simp [hl, hexe, Ne.symm hg]
      · simpa [hq, State.setFile] using hl q
  case dead =>
    intro q
    by_cases hq : q = pid
    · simp [hq]
    · simpa [hq, State.setFile] using hs.dead q

end

theorem reap (hs : Shape s none) {s' : State} (hr : Reaped s s' pid) : Shape s' none := by
  have hspte : ∀ q r, s'.spte q r = if q = pid then none else s.spte q r := by
    intro q r
    simp only [State.spte, hr.procs, update_apply]
    split <;> rfl
  have hpte : ∀ q r, s'.pte q r = if q = pid then {} else s.pte q r := by
    intro q r
    simp only [State.pte, hr.procs, update_apply]
    split <;> rfl
  -- No other process uses a frame of the dying one.
  have hother : ∀ q r, q ≠ pid → (s.pte q r).present = true →
      s'.userPool[(s.pte q r).frame]? = s.userPool[(s.pte q r).frame]? := by
    intro q r hq hp
    refine (hr.frames _ ?_).1
    intro page hpp heq
    exact hq (hs.frames.frame_inj hpp hp heq).1.symm
  constructor
  case frames =>
    constructor
    case loaded =>
      intro q r
      rw [hpte, hspte]
      split
      · simp
      · exact hs.frames.loaded q r
    case writable =>
      intro q r e
      rw [hpte, hspte]
      split
      · simp
      · exact hs.frames.writable q r e
    case frame =>
      intro q r
      rw [hpte]
      split
      · simp
      · rename_i hq
        intro hp
        obtain ⟨hu, hm, hh⟩ := hs.frames.frame q r hp
        refine ⟨by rw [hother q r hq hp]; exact hu, ?_, hh⟩
        rw [hr.frameTable, List.mem_filter]
        exact ⟨hm, by simpa using hq⟩
    case table =>
      intro fte hm
      rw [hr.frameTable, List.mem_filter] at hm
      have hq : fte.owner ≠ pid := by simpa using hm.2
      obtain ⟨r, ha, hp, hf⟩ := hs.frames.table fte hm.1
      exact ⟨r, ha, by simpa [hpte, hq] using hp, by simpa [hpte, hq] using hf⟩
    case nodup =>
      rw [hr.frameTable]
      exact hs.frames.nodup.sublist (List.filter_sublist.map _)
    case held => simp
  case entries =>
    constructor
    · intro q r e he
      rw [hspte] at he
      split at he
      · cases he
      · rename_i hq
        simpa [hr.procs, hq] using hs.entries.entry q r e he
    · intro q r r' e e' m he he'
      rw [hspte] at he he'
      split at he
      · cases he
      · rename_i hq
        rw [if_neg hq] at he'
        exact hs.entries.ofs_inj q r r' e e' m he he'
  case slots =>
    have hsw : ∀ {q r i}, SwappedOut s' q r i → SwappedOut s q r i := by
      rintro q r i ⟨e, he, hrest⟩
      rw [hspte] at he
      split at he
      · cases he
      · exact ⟨e, he, hrest⟩
    constructor
    · intro q r e he
      rw [hspte] at he
      split at he
      · cases he
      · exact hs.slots.slot q r e he
    · intro q r i hi
      simp only [SlotUsed, hr.swapSlots]
      exact hs.slots.used q r i (hsw hi)
    · exact fun q r q' r' i hi hi' => hs.slots.inj q r q' r' i (hsw hi) (hsw hi')
  case deny =>
    intro f
    obtain ⟨l, hnd, hl, hlen⟩ := hs.deny f
    rw [hr.denyWriteCnt]
    by_cases hexe : (s.procs pid).exe = some f
    · refine ⟨l.erase pid, hnd.erase pid, ?_, ?_⟩
      · intro q
        rw [hnd.mem_erase_iff, hl, hr.procs]
        by_cases hq : q = pid <;> simp [hq]
      · rw [List.length_erase_of_mem ((hl pid).mpr hexe), if_pos hexe]
        omega
    · refine ⟨l, hnd, ?_, by simpa [hexe] using hlen⟩
      intro q
      rw [hl, hr.procs]
      by_cases hq : q = pid
      · simp [hq, hexe]
      · simp [hq]
  case dead =>
    intro q
    rw [hr.procs]
    by_cases hq : q = pid
    · simp [hq]
    · simpa [hq] using hs.dead q

section

variable (hs : Shape s (some k)) (hphase : (s.procs pid).phase = .running)

include hs hphase

theorem installNew
    (hspte : s.spte pid page = none) : Shape (s.mapFrame pid page k .fresh) none := by
  refine hs.mapFrame (hs.frames.not_present (by simp [hspte])) rfl
    (hs.entries.change (fun q r => s.spte_mapFrame pid q page r k _)
      (by simp [State.mapFrame, State.setFrameTable]) ?_ ?_)
    fun q r i _ hi => hs.slots.used q r i hi
  · rintro _ ⟨⟩
    exact {
      live := by simp [hphase]
      loading := fun h => by simp [hphase] at h
      zero := fun _ => rfl
      bytes := fun h => by cases h
      exe := fun h => by cases h
      mapping := fun m hm => by cases hm }
  · rintro _ m ⟨⟩ hm
    cases hm

theorem installFile {e : SupPageTableEntry} (hspte : s.spte pid page = some e)
    (hload : e.isLoaded = false) :
    Shape (s.mapFrame pid page k { e with isLoaded := true }) none :=
  hs.mapFrame (hs.frames.not_present (by simp [hspte, hload])) rfl
    (hs.update_mapFrame hspte ((hs.entries.entry _ _ _ hspte).load hphase) rfl rfl)
    fun q r i _ hi => hs.slots.used q r i hi

theorem installSwap {e : SupPageTableEntry} {i : Nat} (hspte : s.spte pid page = some e)
    (hload : e.isLoaded = false) (hsource : e.source = .swap)
    (hslot : e.swapSlotIndex = some i) (hslots : s.swapSlots = some b) :
    Shape ((s.setSwapSlots (b.set i false)).mapFrame pid page k
      { e with isLoaded := true, swapSlotIndex := none }) none :=
  hs.mapFrame (hs.frames.not_present (by simp [hspte, hload])) rfl
    (hs.update_mapFrame hspte ((hs.entries.entry _ _ _ hspte).swapIn hphase) rfl rfl)
    fun _ _ _ hqr hj => hs.slotUsed_free hspte hload hsource hslot hslots hqr hj

end

/-- A process that was being loaded starts to run: its entries keep their
    shapes. -/
theorem run (hs : Shape s h) (pid : Pid) : Shape (s.setPhase pid .running) h :=
  hs.setProc rfl rfl rfl (fun h => by cases h)
    fun _ he => { he with live := by simp, loading := fun h => by cases h }

/-- The first stack page is mapped and the process starts to run. -/
theorem installStack (hs : Shape s (some k)) {e : SupPageTableEntry}
    (hphase : (s.procs pid).phase = .loading)
    (hspte : s.spte pid page = some e ∨ s.spte pid page = none ∧ e = .fresh) :
    Shape ((s.mapFrame pid page k
      { e with writable := true, isLoaded := true }).setPhase pid .running) none := by
  have hrun := hs.run pid
  have hphase' : ((s.setPhase pid .running).procs pid).phase = .running := by simp
  rw [State.setPhase_mapFrame]
  rcases hspte with hspte | ⟨hspte, rfl⟩
  · obtain ⟨hload, hsource, hmap⟩ := (hs.entries.entry _ _ _ hspte).loading hphase
    have hspte' : (s.setPhase pid .running).spte pid page = some e := by simpa using hspte
    have hentry := (hrun.entries.entry _ _ _ hspte').load hphase'
    refine hrun.mapFrame (hrun.frames.not_present (by simp [hspte, hload])) rfl
      (hrun.update_mapFrame hspte' { hentry with mapping := ?_ } rfl rfl)
      fun q r i _ hi => hrun.slots.used q r i hi
    intro m hm
    simp [hmap] at hm
  · exact hrun.installNew hphase' (by simpa using hspte)

theorem evictFile (hs : Shape s none) {e : SupPageTableEntry}
    (hl : s.frameTable.Perm (⟨k, pid, some page⟩ :: l)) (hspte : s.spte pid page = some e)
    (hsource : e.source = .fileBacked) :
    Shape (s.unmapFrame l pid page
      (some { e with isLoaded := false, source := .fileBacked, swapSlotIndex := none }))
      (some k) :=
  hs.unmapFrame hl (by rintro _ ⟨⟩; rfl)
    (hs.entries.update hspte (fun q r => s.spte_unmapFrame pid q page r l _)
      (by simp [State.unmapFrame, State.setFrameTable])
      ((hs.entries.entry _ _ _ hspte).unload hsource) rfl rfl)
    (by rintro _ ⟨⟩ _ h; cases h) (fun _ h => h) rfl

theorem evictSwap (hs : Shape s none) {e : SupPageTableEntry} {i : Nat} (hl : s.frameTable.Perm (⟨k, pid, some page⟩ :: l))
    (hspte : s.spte pid page = some e) (hmap : e.mapping = none)
    (hslots : s.swapSlots = some b) (hfree : b[i]? = some false) (d : PageData) :
    Shape ((writeToBlock (s.setSwapSlots (b.set i true)) i d).unmapFrame l pid page
      (some { e with swapSlotIndex := some i, isLoaded := false, source := .swap })) (some k) := by
  have hlt : i < b.length := (List.getElem?_eq_some_iff.mp hfree).1
  have hload : e.isLoaded = true :=
    hs.frames.isLoaded hspte (hs.frames.of_mem (hl.symm.subset (List.mem_cons_self ..))).1
  refine hs.unmapFrame hl (by rintro _ ⟨⟩; rfl)
    (hs.entries.update hspte (fun q r => s.spte_unmapFrame pid q page r l _)
      (by simp [State.unmapFrame, State.setFrameTable])
      ((hs.entries.entry _ _ _ hspte).swapOut hload hmap i) rfl rfl) ?_ ?_ rfl
  · rintro _ ⟨⟩ - -
    refine ⟨i, rfl, ⟨b.set i true, rfl, by simp [hlt]⟩, ?_⟩
    intro q r hi
    obtain ⟨b', hb', hbit⟩ := hs.slots.used q r i hi
    rw [hslots] at hb'
    cases hb'
    rw [hfree] at hbit
    cases hbit
  · rintro j ⟨b', hb', hbit⟩
    rw [hslots] at hb'
    cases hb'
    refine ⟨b.set i true, rfl, ?_⟩
    rw [List.getElem?_set]
    split
    · rfl
    · exact hbit

/-- Every effect keeps the structural invariant. -/
theorem effect {x y : Held} (hs : Shape x.1 x.2) (he : Effect X img x y) : Shape y.1 y.2 := by
  cases he with
  | alloc hk => exact (hs.alloc hk).setMem _ _
  | free => exact hs.free.setMem _ _
  | fill d => exact hs.setMem _ d
  | installNew hphase hspte => exact hs.installNew hphase hspte
  | installFile hphase hspte hload => exact hs.installFile hphase hspte hload
  | installSwap hphase hspte hload hsource hslot hslots =>
    exact hs.installSwap hphase hspte hload hsource hslot hslots
  | installStack hphase hspte => exact hs.installStack hphase hspte
  | evictFile hl hspte hsource => exact hs.evictFile hl hspte hsource
  | evictSwap hl hspte hmap hslots hfree => exact hs.evictSwap hl hspte hmap hslots hfree _
  | permute hl =>
    exact hs.change (hs.frames.congr (fun _ _ => ⟨rfl, fun _ => ⟨rfl, rfl⟩⟩) (fun _ _ _ _ => Iff.rfl) rfl hl)
      ⟨hs.entries.entry, hs.entries.ofs_inj⟩ (hs.slots.congr (fun _ _ => rfl) rfl)
      (fun _ => ⟨rfl, rfl⟩) rfl
  | writeBack => exact hs.setFile
  | detach hl =>
    exact hs.unmapFrame hl (by simp)
      (hs.entries.remove (fun q r => State.spte_unmapFrame _ _ q _ r _ _)
        (by simp [State.unmapFrame, State.setFrameTable]))
      (by simp) (fun _ h => h) rfl
  | remove hspte hload hsource =>
    exact hs.setSpte (by simp [hspte, hload]) (by simp)
      (hs.entries.remove (fun q r => State.spte_setSpte _ _ q _ r _) (by simp))
  | addExe hphase hexe hspte _ hbytes => exact hs.addExe hphase hexe hspte hbytes
  | addMapping hphase hspte _ hid hofs hnew => exact hs.addMapping hphase hspte hid hofs hnew
  | fileWrite => exact hs.setFile
  | exit hlive =>
    exact hs.setProc rfl rfl rfl (fun h => by cases h)
      fun e he => { he with live := by simp, loading := fun h => by cases h }
  | mappings hn =>
    exact hs.setProc rfl rfl rfl id
      fun e he => { he with
        mapping := fun m hm => by
          obtain ⟨h1, h2, h3, h4, h5⟩ := he.mapping m hm
          exact ⟨h1, h2, h3, h4, Nat.lt_of_lt_of_le h5 hn⟩ }
  | stalePte hold hnew =>
    exact hs.setPte (by rw [hold, hnew]) (by simp [hold])
  | spawn hdead => exact hs.spawn hdead

theorem effects {x y : Held} (hs : Shape x.1 x.2) (he : Effects X img x y) : Shape y.1 y.2 := by
  induction he with
  | refl => exact hs
  | tail _ he ih => exact ih.effect he

end Shape

end Pintos.Vm
