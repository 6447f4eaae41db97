/-
  Pintos.Vm.Preserve

  Paging preserves memory.  The image of memory is kept beside the state: a
  page enters it with its contents when it is first installed, user stores
  change it, and it leaves it when it is unmapped or its process ends.  Faults
  and evictions do not touch the image, and yet in every reachable state a load
  returns the byte the image has.

  The image of a page that is not present is in its swap slot or in its file.
-/

import Pintos.Vm.Sound

namespace Pintos.Vm

open Pintos.Base Pintos.Lib Function

variable {e : SupPageTableEntry} {x y : Held} {d : PageData} {b : List Bool}
  {l : List FrameTableEntry}

/-- The bytes of a page the image speaks about: all of them, but of a page of a
    mapping only those its file has, and only if nothing else writes the
    file. -/
def Covered (X : Set FileId) (e : SupPageTableEntry) (off : Nat) : Prop :=
  ∀ m, e.mapping = some m → m.file ∈ X ∧ off < e.readBytes

/-- Where the contents of a page are: `frame`, `slot` and `file` are the
    contents of the frame, of the slot and of the part of the file its entries
    point to. -/
structure PageOk (X : Set FileId) (im : Option PageData) (e : SupPageTableEntry) (t : Pte)
    (frame slot file : PageData) : Prop where
  image : ∀ d, im = some d → ∀ off < PGSIZE, Covered X e off →
    (if t.present then frame else if e.source = .swap then slot else file) off = d off
  /-- A page that will be dropped is what its file has. -/
  faithful : t.present = true → e.source = .fileBacked → (e.mapping = none → e.writable = false) →
    (e.mapping ≠ none → t.dirty = false) → ∀ off < PGSIZE, Covered X e off → frame off = file off
  /-- A writable page of an executable goes to its file only to be read for the
      first time. -/
  pristine : e.isLoaded = false → e.source = .fileBacked → e.mapping = none →
    e.writable = true → im = none

/-- Every page has its contents, and a dirty page of a file in `X` is written
    through the only mapping of the file. -/
structure DataOk (X : Set FileId) (img : Image) (s : State) : Prop where
  page : ∀ pid page e, s.spte pid page = some e →
    PageOk X (img pid page) e (s.pte pid page) (s.mem (s.pte pid page).frame)
      (slotData s (e.swapSlotIndex.getD 0)) (filePage s e)
  exclusive : ∀ pid page e m, s.spte pid page = some e → e.mapping = some m → m.file ∈ X →
    (s.pte pid page).present = true → (s.pte pid page).dirty = true →
    ∀ q r e' m', s.spte q r = some e' → e'.mapping = some m' → m'.file = m.file → q = pid ∧ m' = m

variable {X : Set FileId} {img : Image} {s s' : State} {h : Option Frame} {pid : Pid}
  {page : PageNo} {k : Frame}

/-- The contents of the frame, slot and file change where the page does not
    have its data. -/
theorem PageOk.congr {im : Option PageData} {t : Pte}
    {frame slot file frame' slot' file' : PageData} (hp : PageOk X im e t frame slot file)
    (hload : e.isLoaded = t.present) (hzero : t.present = false → e.source ≠ .zero)
    (hframe : t.present = true → ∀ off < PGSIZE, frame' off = frame off)
    (hslot : t.present = false → e.source = .swap → ∀ off < PGSIZE, slot' off = slot off)
    (hfile : e.source = .fileBacked → (e.mapping = none → e.writable = false) →
      (t.present = true → e.mapping ≠ none → t.dirty = false) →
      ∀ off < PGSIZE, Covered X e off → file' off = file off) :
    PageOk X im e t frame' slot' file' where
  image d hd off hoff hcov := by
    have himg := hp.image d hd off hoff hcov
    cases hpres : t.present with
    | true =>
      rw [hpres] at himg
      simp only [if_true] at himg ⊢
      rw [hframe hpres off hoff, himg]
    | false =>
      rw [hpres] at himg
      simp only [Bool.false_eq_true, if_false] at himg ⊢
      split
      · rename_i hsrc
        rw [if_pos hsrc] at himg
        rw [hslot hpres hsrc off hoff, himg]
      · rename_i hsrc
        rw [if_neg hsrc] at himg
        have hsource : e.source = .fileBacked := by
          cases hs : e.source with
          | zero => exact absurd hs (hzero hpres)
          | swap => exact absurd hs hsrc
          | fileBacked => rfl
        have hkeep : e.mapping = none → e.writable = false := by
          intro hm
          by_contra hw
          have hnone := hp.pristine (hload.trans hpres) hsource hm (by simpa using hw)
          rw [hd] at hnone
          cases hnone
        rw [hfile hsource hkeep (by simp [hpres]) off hoff hcov, himg]
  faithful hpres hsource hkeep hdirty off hoff hcov := by
    rw [hframe hpres off hoff, hp.faithful hpres hsource hkeep hdirty off hoff hcov,
      hfile hsource hkeep (fun _ => hdirty) off hoff hcov]
  pristine := hp.pristine

/-- A page that is installed for the first time and will not be dropped. -/
theorem PageOk.first {t : Pte} {frame slot file : PageData} (hload : e.isLoaded = true)
    (hkeep : e.source = .fileBacked → e.mapping = none ∧ e.writable = true) :
    PageOk X none e t frame slot file where
  image d hd := by cases hd
  faithful _ hsource hw := by
    obtain ⟨hm, hwr⟩ := hkeep hsource
    simp [hwr] at hw
    exact absurd hm hw
  pristine := by simp [hload]

theorem Shape.isLoaded_eq (hs : Shape s h)
    (he : s.spte pid page = some e) : e.isLoaded = (s.pte pid page).present := by
  cases hp : (s.pte pid page).present with
  | true => exact hs.frames.isLoaded he hp
  | false =>
    cases hl : e.isLoaded with
    | false => rfl
    | true => rw [hs.frames.present he hl] at hp; cases hp

theorem Shape.not_zero (hs : Shape s h) (he : s.spte pid page = some e)
    (hp : (s.pte pid page).present = false) : e.source ≠ .zero := by
  intro hz
  rw [← hs.isLoaded_eq he, (hs.entries.entry _ _ _ he).zero hz] at hp
  cases hp

/-- Two states give a file the same contents. -/
theorem filePage_congr
    (hf : (s'.files e.file).contents = (s.files e.file).contents) : filePage s' e = filePage s e := by
  funext off
  simp only [filePage, hf]

namespace DataOk

/-- One page changes; the frames, slots and files of the others do not. -/
theorem change (hs : Shape s h) (hd : DataOk X img s) {x : Option SupPageTableEntry}
    (hspte : ∀ q r, s'.spte q r = if q = pid ∧ r = page then x else s.spte q r)
    (hpte : ∀ q r, ¬ (q = pid ∧ r = page) → s'.pte q r = s.pte q r)
    (hmem : ∀ q r, ¬ (q = pid ∧ r = page) → (s.pte q r).present = true →
      s'.mem (s.pte q r).frame = s.mem (s.pte q r).frame)
    (hslot : ∀ q r i, ¬ (q = pid ∧ r = page) → SwappedOut s q r i → ∀ off < PGSIZE,
      slotData s' i off = slotData s i off)
    (hfile : ∀ f, (s'.files f).contents = (s.files f).contents)
    (hpage : ∀ e, x = some e → PageOk X (img pid page) e (s'.pte pid page)
      (s'.mem (s'.pte pid page).frame) (slotData s' (e.swapSlotIndex.getD 0)) (filePage s' e))
    (hdirty : (s'.pte pid page).present = true → (s'.pte pid page).dirty = false)
    (hmap : ∀ e m, x = some e → e.mapping = some m →
      (∃ e₀, s.spte pid page = some e₀ ∧ e₀.mapping = some m) ∨
        (m.file ∈ X → ¬ DirtyMapping s m.file)) : DataOk X img s' where
  page q r e he := by
    rw [hspte] at he
    split at he
    · rename_i hqr
      obtain ⟨rfl, rfl⟩ := hqr
      exact hpage e he
    · rename_i hqr
      rw [hpte q r hqr]
      refine (hd.page q r e he).congr (hs.isLoaded_eq he) (hs.not_zero he) ?_ ?_ ?_
      · intro hp off _
        rw [hmem q r hqr hp]
      · intro hp hsource off hoff
        have hload := (hs.isLoaded_eq he).trans hp
        obtain ⟨i, hi⟩ := hs.slots.slot q r e he hload hsource
        rw [hi]
        exact hslot q r i hqr ⟨e, he, hload, hsource, hi⟩ off hoff
      · intro _ _ _ off _ _
        rw [filePage_congr (hfile _)]
  exclusive q r e m he hm hX hp hdi q' r' e' m' he' hm' hf := by
    have hqr : ¬ (q = pid ∧ r = page) := by
      rintro ⟨rfl, rfl⟩
      rw [hdirty hp] at hdi
      cases hdi
    rw [hspte, if_neg hqr] at he
    rw [hpte q r hqr] at hp hdi
    rw [hspte] at he'
    split at he'
    · rename_i hqr'
      obtain ⟨rfl, rfl⟩ := hqr'
      rcases hmap e' m' he' hm' with ⟨e₀, he₀, hm₀⟩ | hclean
      · exact hd.exclusive q r e m he hm hX hp hdi q' r' e₀ m' he₀ hm₀ hf
      · exact absurd ⟨q, r, e, m, he, hm, hf.symm, hp, hdi⟩ (hclean (hf ▸ hX))
    · exact hd.exclusive q r e m he hm hX hp hdi q' r' e' m' he' hm' hf

/-- No page changes: the state changes outside the frames, slots and parts of
    files in which the pages have their contents. -/
theorem congr (hs : Shape s h) (hd : DataOk X img s)
    (hspte : ∀ q r e, s'.spte q r = some e → s.spte q r = some e)
    (hpte : ∀ q r e, s'.spte q r = some e → s'.pte q r = s.pte q r)
    (hmem : ∀ q r e, s'.spte q r = some e → (s.pte q r).present = true →
      s'.mem (s.pte q r).frame = s.mem (s.pte q r).frame)
    (hslot : s'.swapBlock = s.swapBlock)
    (hfile : ∀ q r e, s.spte q r = some e → e.source = .fileBacked →
      (e.mapping = none → e.writable = false) →
      ((s.pte q r).present = true → e.mapping ≠ none → (s.pte q r).dirty = false) →
      ∀ off < PGSIZE, Covered X e off → filePage s' e off = filePage s e off) :
    DataOk X img s' where
  page q r e he := by
    rw [hpte q r e he]
    refine (hd.page q r e (hspte q r e he)).congr (hs.isLoaded_eq (hspte q r e he))
      (hs.not_zero (hspte q r e he)) ?_ ?_ ?_
    · intro hp off _
      rw [hmem q r e he hp]
    · intro _ _ off _
      simp only [slotData, hslot]
    · exact hfile q r e (hspte q r e he)
  exclusive q r e m he hm hX hp hdi q' r' e' m' he' hm' := by
    rw [hpte q r e he] at hp hdi
    exact hd.exclusive q r e m (hspte q r e he) hm hX hp hdi q' r' e' m' (hspte q' r' e' he') hm'

/-- The contents of a frame no page is mapped to. -/
theorem setMem (hs : Shape s h) (hd : DataOk X img s)
    (hk : ∀ q r, (s.pte q r).present = true → (s.pte q r).frame ≠ k) :
    DataOk X img (s.setMem k d) :=
  hd.congr hs (fun _ _ _ he => he) (fun _ _ _ _ => rfl)
    (fun q r _ _ hp => by simp [State.setMem, hk q r hp]) rfl (fun _ _ _ _ _ _ _ _ _ _ => rfl)

theorem setUserPool (hd : DataOk X img s) : DataOk X img (s.setUserPool b) :=
  ⟨hd.page, hd.exclusive⟩

/-- A page that was not present is mapped to the held frame. -/
theorem mapFrame (hs : Shape s (some k)) (hd : DataOk X img s) {b : Option (List Bool)}
    (hpage : PageOk X (img pid page) e ⟨true, k, e.writable, false⟩ (s.mem k)
      (slotData s (e.swapSlotIndex.getD 0)) (filePage s e))
    (hmap : ∀ m, e.mapping = some m → ∃ e₀, s.spte pid page = some e₀ ∧ e₀.mapping = some m) :
    DataOk X img (({ s with swapSlots := b } : State).mapFrame pid page k e) := by
  refine hd.change hs (fun q r => State.spte_mapFrame _ pid q page r k e) ?_ (fun _ _ _ _ => rfl)
    (fun _ _ _ _ _ _ _ => rfl) (fun _ => rfl) ?_ (by simp) ?_
  · intro q r hqr
    rw [State.pte_mapFrame, if_neg hqr]
    rfl
  · rintro _ ⟨⟩
    rw [State.pte_mapFrame, if_pos ⟨rfl, rfl⟩]
    exact hpage
  · rintro _ m ⟨⟩ hm
    exact Or.inl (hmap m hm)

theorem installFile (hs : Shape s (some k)) (hd : DataOk X img s)
    (hspte : s.spte pid page = some e) (hload : e.isLoaded = false)
    (hsource : e.source = .fileBacked) (hdata : ∀ off < PGSIZE, s.mem k off = filePage s e off) :
    DataOk X img (s.mapFrame pid page k { e with isLoaded := true }) := by
  have hp : (s.pte pid page).present = false := (hs.isLoaded_eq hspte).symm.trans hload
  refine hd.mapFrame hs ⟨?_, ?_, ?_⟩ fun m hm => ⟨e, hspte, hm⟩
  · intro d hdim off hoff hcov
    have := (hd.page _ _ _ hspte).image d hdim off hoff hcov
    simp only [hp, hsource, reduceCtorEq, Bool.false_eq_true, if_false] at this
    simpa [hdata off hoff] using this
  · exact fun _ _ _ _ off hoff _ => hdata off hoff
  · intro hl
    cases hl

theorem installSwap (hs : Shape s (some k)) (hd : DataOk X img s) {i : Nat} (hspte : s.spte pid page = some e) (hload : e.isLoaded = false)
    (hsource : e.source = .swap) (hslot : e.swapSlotIndex = some i)
    (hdata : ∀ off < PGSIZE, s.mem k off = slotData s i off) :
    DataOk X img ((s.setSwapSlots b).mapFrame pid page k
      { e with isLoaded := true, swapSlotIndex := none }) := by
  have hp : (s.pte pid page).present = false := (hs.isLoaded_eq hspte).symm.trans hload
  refine hd.mapFrame hs ⟨?_, ?_, ?_⟩ fun m hm => ⟨e, hspte, hm⟩
  · intro d hdim off hoff hcov
    have := (hd.page _ _ _ hspte).image d hdim off hoff hcov
    simp only [hp, hsource, hslot, Bool.false_eq_true, if_false, if_true, Option.getD_some] at this
    simpa [hdata off hoff] using this
  · intro _ hs
    rw [hsource] at hs
    cases hs
  · intro hl
    cases hl

/-- A page is unmapped.  Its contents have to be in the slot or in the file, and
    the slots of the other pages stay as they are. -/
theorem unmapFrame (hs : Shape s none) (hd : DataOk X img s) {s₁ : State} {x : Option SupPageTableEntry}
    (hs₁ : s₁ = { s with swapSlots := s₁.swapSlots, swapBlock := s₁.swapBlock })
    (hslot : ∀ q r i, SwappedOut s q r i → ∀ off < PGSIZE, slotData s₁ i off = slotData s i off)
    (hpage : ∀ e, x = some e → PageOk X (img pid page) e { s.pte pid page with present := false }
      (s.mem (s.pte pid page).frame) (slotData s₁ (e.swapSlotIndex.getD 0)) (filePage s e))
    (hmap : ∀ e m, x = some e → e.mapping = some m →
      ∃ e₀, s.spte pid page = some e₀ ∧ e₀.mapping = some m) :
    DataOk X img (s₁.unmapFrame l pid page x) := by
  obtain ⟨b, d, rfl⟩ : ∃ b d, s₁ = { s with swapSlots := b, swapBlock := d } := ⟨_, _, hs₁⟩
  refine hd.change hs (fun q r => State.spte_unmapFrame _ pid q page r l x) ?_
    (fun _ _ _ _ => rfl) (fun q r i _ hi => hslot q r i hi) (fun _ => rfl) ?_ (by simp) ?_
  · intro q r hqr
    rw [State.pte_unmapFrame, if_neg hqr]
    rfl
  · rintro e he
    rw [State.pte_unmapFrame, if_pos ⟨rfl, rfl⟩]
    exact hpage e he
  · exact fun e m he hm => Or.inl (hmap e m he hm)

theorem evictFile (hs : Shape s none) (hd : DataOk X img s) (hl : s.frameTable.Perm (⟨k, pid, some page⟩ :: l))
    (hspte : s.spte pid page = some e) (hsource : e.source = .fileBacked)
    (hkeep : e.mapping = none → e.writable = false)
    (hclean : e.mapping ≠ none → (s.pte pid page).dirty = true →
      ∀ off < e.readBytes, filePage s e off = s.mem k off) :
    DataOk X img (s.unmapFrame l pid page
      (some { e with isLoaded := false, source := .fileBacked, swapSlotIndex := none })) := by
  obtain ⟨hp, rfl⟩ := hs.frames.of_mem (hl.symm.subset (List.mem_cons_self ..))
  have hpage := hd.page _ _ _ hspte
  refine hd.unmapFrame hs rfl (fun _ _ _ _ _ _ => rfl) ?_ ?_
  · rintro _ ⟨⟩
    refine ⟨?_, by simp, ?_⟩
    · intro d hdim off hoff hcov
      have himg := hpage.image d hdim off hoff hcov
      simp only [hp, if_true] at himg
      -- the frame and the file agree, whether the page was clean or written back
      have hfile : filePage s e off = s.mem (s.pte pid page).frame off := by
        by_cases hdirty : e.mapping ≠ none ∧ (s.pte pid page).dirty = true
        · obtain ⟨m, hm⟩ := Option.ne_none_iff_exists'.mp hdirty.1
          exact hclean hdirty.1 hdirty.2 off (hcov m hm).2
        · refine (hpage.faithful hp hsource hkeep ?_ off hoff hcov).symm
          intro hm
          simpa [hm] using hdirty
      simp only [Bool.false_eq_true, reduceCtorEq, if_false]
      exact hfile.trans himg
    · intro _ _ hm hw
      rw [hkeep hm] at hw
      cases hw
  · rintro _ m ⟨⟩ hm
    exact ⟨e, hspte, hm⟩

theorem evictSwap (hs : Shape s none) (hd : DataOk X img s) {i : Nat}
    (hl : s.frameTable.Perm (⟨k, pid, some page⟩ :: l)) (hspte : s.spte pid page = some e)
    (hmap : e.mapping = none) (hslots : s.swapSlots = some b) (hfree : b[i]? = some false) :
    DataOk X img ((writeToBlock (s.setSwapSlots (b.set i true)) i (s.mem k)).unmapFrame l pid page
      (some { e with swapSlotIndex := some i, isLoaded := false, source := .swap })) := by
  obtain ⟨hp, rfl⟩ := hs.frames.of_mem (hl.symm.subset (List.mem_cons_self ..))
  have hpage := hd.page _ _ _ hspte
  refine hd.unmapFrame hs rfl ?_ ?_ ?_
  · intro q r j hj off hoff
    rw [slotData_writeToBlock _ _ _ _ hoff, if_neg]
    · rfl
    · rintro rfl
      obtain ⟨b', hb', hbit⟩ := hs.slots.used q r j hj
      rw [hslots] at hb'
      cases hb'
      rw [hfree] at hbit
      cases hbit
  · rintro _ ⟨⟩
    refine ⟨?_, by simp, by simp⟩
    intro d hdim off hoff hcov
    have himg := hpage.image d hdim off hoff hcov
    simp only [hp, if_true] at himg
    simp only [Bool.false_eq_true, if_false, if_true, Option.getD_some]
    rw [slotData_writeToBlock _ _ _ _ hoff, if_pos rfl]
    exact himg
  · rintro _ m ⟨⟩ hm
    simp [hmap] at hm

section

variable (hs : Shape s h) (hd : DataOk X img s)

include hs hd

/-- An entry that is not loaded is added for a new page, or removed. -/
theorem setSpte {x : Option SupPageTableEntry} (hp : (s.pte pid page).present = false)
    (himg : ∀ e, x = some e → e.isLoaded = false ∧ img pid page = none)
    (hmap : ∀ e m, x = some e → e.mapping = some m → m.file ∈ X → ¬ DirtyMapping s m.file) :
    DataOk X img (s.setSpte pid page x) := by
  refine hd.change hs (fun q r => s.spte_setSpte pid q page r x) (by simp) (fun _ _ _ _ => rfl)
    (fun _ _ _ _ _ _ _ => rfl) (fun _ => rfl) ?_ (by simp [hp])
    fun e m he hm => Or.inr (hmap e m he hm)
  intro e he
  rw [State.pte_setSpte, (himg e he).2]
  exact ⟨by simp, by simp [hp], by simp⟩

/-- A process changes, but none of its pages. -/
theorem setProc {p : Process} (hspt : p.supPageTable = (s.procs pid).supPageTable)
    (hpd : p.pagedir = (s.procs pid).pagedir) : DataOk X img (s.setProc pid p) := by
  have hspte : ∀ q r, (s.setProc pid p).spte q r = s.spte q r := by
    intro q r
    rw [State.spte_setProc]
    split
    · rename_i hq; rw [hspt, hq]; rfl
    · rfl
  have hpte : ∀ q r, (s.setProc pid p).pte q r = s.pte q r := by
    intro q r
    rw [State.pte_setProc]
    split
    · rename_i hq; rw [hpd, hq]; rfl
    · rfl
  exact hd.congr hs (fun q r e he => hspte q r ▸ he) (fun q r _ _ => hpte q r)
    (fun _ _ _ _ _ => rfl) rfl (fun _ _ _ _ _ _ _ _ _ _ => rfl)

/-- The contents of a file change that is not write-denied.  A page of the file
    has its contents in the part that changes only if it is dirty. -/
theorem setFile {f : FileId} {b : List UInt8} (hdeny : (s.files f).denyWriteCnt = 0)
    (hc : ∀ q r e m, s.spte q r = some e → e.mapping = some m → m.file = f → f ∈ X →
      ((s.pte q r).present = true → (s.pte q r).dirty = false) → ∀ off < e.readBytes,
        (b[e.ofs + off]?).getD 0 = ((s.files f).contents[e.ofs + off]?).getD 0) :
    DataOk X img (s.setFile f { s.files f with contents := b }) := by
  refine hd.congr hs (fun _ _ _ he => he) (fun _ _ _ _ => rfl) (fun _ _ _ _ _ => rfl) rfl ?_
  intro q r e he hsource hkeep hclean off _ hcov
  have hentry := hs.entries.entry q r e he
  by_cases hf : e.file = f
  · cases hm : e.mapping with
    | none => exact absurd hdeny (hf ▸ hs.deny.denied (hentry.exe hsource hm))
    | some m =>
      have hmf : m.file = f := (hentry.mapping m hm).2.1.symm.trans hf
      obtain ⟨hX, hoff⟩ := hcov m hm
      simp only [filePage, if_pos hoff, State.setFile, hf, update_self]
      exact hc q r e m he hm hmf (hmf ▸ hX) (fun hp => hclean hp (by simp [hm])) off hoff
  · simp [filePage, State.setFile, hf]

theorem writeBack
    {m : MemoryMapping} {n : Nat} (hspte : s.spte pid page = some e) (hmap : e.mapping = some m)
    (hpresent : (s.pte pid page).present = true) (hdirty : (s.pte pid page).dirty = true)
    (hn : n ≤ PGSIZE) (hdeny : (s.files m.file).denyWriteCnt = 0) :
    DataOk X img (s.setFile m.file { s.files m.file with
      contents := overwrite 0 (s.files m.file).contents e.ofs (d.bytes n) }) := by
  refine hd.setFile hs hdeny ?_
  intro q r e' m' he' hm' hf hX hclean off hoff
  -- the file has one mapping, and the pages of a mapping are in different parts of it
  obtain ⟨rfl, rfl⟩ := hd.exclusive _ _ _ _ hspte hmap hX hpresent hdirty q r e' m' he' hm' hf
  have hne : e'.ofs ≠ e.ofs := by
    intro heq
    have hr := hs.entries.ofs_inj _ _ _ _ _ _ he' hspte hm' hmap heq
    subst hr
    rw [hclean hpresent] at hdirty
    cases hdirty
  obtain ⟨hsource, -, -, hofs', -⟩ := (hs.entries.entry _ _ _ he').mapping _ hm'
  obtain ⟨-, -, -, hofs, -⟩ := (hs.entries.entry _ _ _ hspte).mapping _ hmap
  have hbytes := (hs.entries.entry _ _ _ he').bytes hsource
  rw [overwrite_getElem?, PageData.bytes_length]
  simp only [PGSIZE] at *
  split
  · split
    · rfl
    · rw [List.getElem?_eq_none (by omega)]
      rfl
  · rw [if_neg (by omega)]

end

theorem installStack (hs : Shape s (some k)) (hd : DataOk X img s)
    (hphase : (s.procs pid).phase = .loading)
    (hspte : s.spte pid page = some e ∨ s.spte pid page = none ∧ e = .fresh)
    (himg : img pid page = none) :
    DataOk X img ((s.mapFrame pid page k
      { e with writable := true, isLoaded := true }).setPhase pid .running) := by
  have hrun : DataOk X img (s.setPhase pid .running) := hd.setProc hs rfl rfl
  have hmap : e.mapping = none := by
    rcases hspte with hspte | ⟨-, rfl⟩
    · exact ((hs.entries.entry _ _ _ hspte).loading hphase).2.2
    · rfl
  rw [State.setPhase_mapFrame]
  exact hrun.mapFrame (hs.run pid) (himg ▸ .first rfl fun _ => ⟨hmap, rfl⟩)
    fun m hm => by simp [hmap] at hm

theorem stalePte (hs : Shape s h) (hd : DataOk X img s) {t : Pte}
    (hold : (s.pte pid page).present = false) (hnew : t.present = false) :
    DataOk X img (s.setPte pid page t) := by
  have hspte : ∀ q r, (s.setPte pid page t).spte q r =
      if q = pid ∧ r = page then s.spte pid page else s.spte q r := by
    intro q r
    rw [State.spte_setPte]
    split
    · rename_i hqr
      rw [hqr.1, hqr.2]
    · rfl
  refine hd.change hs hspte (fun q r hqr => by rw [State.pte_setPte, if_neg hqr])
    (fun _ _ _ _ => rfl) (fun _ _ _ _ _ _ _ => rfl) (fun _ => rfl) ?_ (by simp [hnew])
    fun e m he hm => Or.inl ⟨e, he, hm⟩
  intro e he
  have hpage := hd.page _ _ _ he
  rw [State.pte_setPte, if_pos ⟨rfl, rfl⟩]
  refine ⟨?_, by simp [hnew], hpage.pristine⟩
  intro d hdim off hoff hcov
  have himg := hpage.image d hdim off hoff hcov
  simp only [hold, hnew, Bool.false_eq_true, if_false] at himg ⊢
  exact himg

theorem spawn (hs : Shape s h) (hd : DataOk X img s) {f : FileId}
    (hdead : (s.procs pid).phase = .dead) :
    DataOk X img ((s.setFile f
      { s.files f with denyWriteCnt := (s.files f).denyWriteCnt + 1 }).setProc pid
        { phase := .loading, exe := some f }) := by
  have hq : ∀ q r e, ((s.setFile f
      { s.files f with denyWriteCnt := (s.files f).denyWriteCnt + 1 }).setProc pid
        { phase := .loading, exe := some f }).spte q r = some e → q ≠ pid := by
    rintro q r e he rfl
    simp at he
  refine hd.congr hs ?_ ?_ (fun _ _ _ _ _ => rfl) rfl ?_
  · intro q r e he
    simpa [hq q r e he] using he
  · intro q r e he
    simp [hq q r e he]
  · intro q r e _ _ _ _ off _ _
    rw [filePage_congr]
    by_cases hf : e.file = f
    · simp [State.setProc, State.setFile, hf]
    · simp [State.setProc, State.setFile, hf]

theorem reap (hs : Shape s none) (hd : DataOk X img s) (hr : Reaped s s' pid) :
    DataOk X img s' := by
  have hspte : ∀ q r e, s'.spte q r = some e → q ≠ pid ∧ s.spte q r = some e := by
    intro q r e he
    simp only [State.spte, hr.procs, update_apply] at he
    split at he
    · cases he
    · rename_i hq
      exact ⟨hq, he⟩
  refine hd.congr hs (fun q r e he => (hspte q r e he).2) ?_ ?_ hr.swapBlock
    (fun _ _ _ _ _ _ _ _ _ _ => by rw [filePage_congr (hr.contents _)])
  · intro q r e he
    simp [State.pte, hr.procs, (hspte q r e he).1]
  · intro q r e he hp
    refine (hr.frames _ ?_).2
    intro page hpp heq
    exact (hspte q r e he).1 (hs.frames.frame_inj hpp hp heq).1.symm

/-- Every effect keeps the contents of memory. -/
theorem effect (hs : Shape x.1 x.2) (hd : DataOk X img x.1) (he : Effect X img x y) :
    DataOk X img y.1 := by
  cases he with
  | alloc hk =>
    refine hd.setUserPool.setMem (hs.alloc hk) ?_
    intro q r hp heq
    have hu := (hs.frames.frame q r hp).1
    rw [State.pte_setUserPool] at heq
    rw [heq, hk] at hu
    cases hu
  | free =>
    refine hd.setUserPool.setMem hs.free ?_
    exact fun q r hp heq => (hs.frames.frame q r hp).2.2 (congrArg some heq.symm)
  | fill d =>
    exact hd.setMem hs fun q r hp heq => (hs.frames.frame q r hp).2.2 (congrArg some heq.symm)
  | installNew hphase hspte himg =>
    exact hd.mapFrame hs (himg ▸ .first rfl fun h => by cases h) fun m hm => by cases hm
  | installFile hphase hspte hload hsource hdata =>
    exact hd.installFile hs hspte hload hsource hdata
  | installSwap hphase hspte hload hsource hslot hslots hdata =>
    exact hd.installSwap hs hspte hload hsource hslot hdata
  | installStack hphase hspte himg => exact hd.installStack hs hphase hspte himg
  | evictFile hl hspte hsource hkeep hclean => exact hd.evictFile hs hl hspte hsource hkeep hclean
  | evictSwap hl hspte hmap hslots hfree => exact hd.evictSwap hs hl hspte hmap hslots hfree
  | permute hl => exact ⟨hd.page, hd.exclusive⟩
  | writeBack hspte hmap hpresent hdirty hn hdeny =>
    exact hd.writeBack hs hspte hmap hpresent hdirty hn hdeny
  | detach hl => exact hd.unmapFrame hs rfl (fun _ _ _ _ _ _ => rfl) (by simp) (by simp)
  | remove hspte hload hsource =>
    exact hd.setSpte hs ((hs.isLoaded_eq hspte).symm.trans hload) (by simp) (by simp)
  | addExe hphase hexe hspte himg hbytes =>
    exact hd.setSpte hs (hs.frames.not_present (by simp [hspte]))
      (by rintro _ ⟨⟩; exact ⟨rfl, himg⟩) (by rintro _ m ⟨⟩ hm; cases hm)
  | addMapping hphase hspte himg hid hofs hnew hclean =>
    exact hd.setSpte hs (hs.frames.not_present (by simp [hspte]))
      (by rintro _ ⟨⟩; exact ⟨rfl, himg⟩) (by rintro _ m ⟨⟩ hm; cases hm; exact hclean)
  | fileWrite hdeny hX =>
    exact hd.setFile hs hdeny fun q r e m he hm hf hfX => absurd ⟨q, r, e, m, he, hm, hf⟩ (hX hfX)
  | exit hlive => exact hd.setProc hs rfl rfl
  | mappings hn => exact hd.setProc hs rfl rfl
  | stalePte hold hnew => exact hd.stalePte hs hold hnew
  | spawn hdead himg => exact hd.spawn hs hdead

theorem effects (hs : Shape x.1 x.2) (hd : DataOk X img x.1)
    (he : Effects X img x y) : DataOk X img y.1 := by
  induction he with
  | refl => exact hd
  | tail hpre he ih => exact ih.effect (hs.effects hpre) he

end DataOk

/-- No page of a process that is being loaded has been installed. -/
theorem Effect.loading (he : Effect X img x y)
    (hl : ∀ q, (x.1.procs q).phase = .loading → ∀ r, img q r = none) :
    ∀ q, (y.1.procs q).phase = .loading → ∀ r, img q r = none := by
  intro q hq
  cases he with
  | alloc | free | fill | permute | writeBack | fileWrite => exact hl q hq
  | installNew | installFile | installSwap =>
    exact hl q (by simpa [State.mapFrame, State.setFrameTable, State.setSwapSlots] using hq)
  | evictFile | evictSwap | detach =>
    exact hl q (by simpa [State.unmapFrame, State.setFrameTable, writeToBlock,
      State.setSwapSlots] using hq)
  | remove | addExe | addMapping | stalePte => exact hl q (by simpa using hq)
  | @installStack s _ pid =>
    by_cases hqp : q = pid
    · simp [hqp] at hq
    · exact hl q (by simpa [hqp, State.mapFrame, State.setFrameTable] using hq)
  | @exit s _ pid =>
    by_cases hqp : q = pid
    · simp [hqp] at hq
    · exact hl q (by simpa [hqp] using hq)
  | @mappings s _ pid =>
    by_cases hqp : q = pid
    · subst hqp
      exact hl q (by simpa using hq)
    · exact hl q (by simpa [hqp] using hq)
  | @spawn s _ pid _ hdead himg =>
    by_cases hqp : q = pid
    · subst hqp
      exact himg
    · exact hl q (by simpa [hqp, State.setFile] using hq)

theorem Effects.loading (he : Effects X img x y)
    (hl : ∀ q, (x.1.procs q).phase = .loading → ∀ r, img q r = none) :
    ∀ q, (y.1.procs q).phase = .loading → ∀ r, img q r = none := by
  induction he with
  | refl => exact hl
  | tail _ he ih => exact he.loading ih

/-! ## The image of memory -/

/-- The image after a user store. -/
def Image.store (img : Image) : Step → Image
  | .store pid addr v => fun q r =>
    if q = pid ∧ r = addr / PGSIZE then
      (img q r).map fun d => update d (addr % PGSIZE) v
    else img q r
  | _ => img

/-- Pages enter the image when they are installed and leave it when they cease
    to exist. -/
def Image.refresh (img : Image) (s : State) : Image := fun pid page =>
  match s.spte pid page with
  | none => none
  | some _ =>
    match img pid page with
    | some d => some d
    | none =>
      if (s.pte pid page).present then some (s.mem (s.pte pid page).frame) else none

/-- Virtual memory together with the image of memory. -/
def traced : System (State × Image) Step where
  start x := Initial x.1 ∧ ∀ pid page, x.2 pid page = none
  next x a := (next x.1 a).map fun s' => (s', (x.2.store a).refresh s')

/-- The invariant of paging with the image. -/
structure TracedOk (X : Set FileId) (x : State × Image) : Prop where
  shape : Shape x.1 none
  data : DataOk X x.2 x.1
  image : ImageOk x.1 x.2
  seen : ∀ pid page, (x.1.pte pid page).present = true → ∃ d, x.2 pid page = some d

/-- Refreshing the image keeps it in agreement with the state. -/
theorem DataOk.refresh (hs : Shape s none) (hd : DataOk X img s) : DataOk X (img.refresh s) s where
  page pid page e he := by
    have hp := hd.page pid page e he
    simp only [Image.refresh, he]
    cases him : img pid page with
    | some d =>
      rw [him] at hp
      exact hp
    | none =>
      rw [him] at hp
      simp only
      split
      · rename_i hpres
        refine ⟨?_, hp.faithful, ?_⟩
        · rintro _ ⟨⟩ off _ _
          rw [if_pos hpres]
        · intro hl
          rw [hs.isLoaded_eq he, hpres] at hl
          cases hl
      · exact hp
  exclusive := hd.exclusive

/-- What is left to show for a step: the invariants with the image before it was
    refreshed. -/
theorem TracedOk.of_refresh (hs : Shape s none) (hd : DataOk X img s)
    (hl : ∀ pid, (s.procs pid).phase = .loading → ∀ page, img pid page = none) :
    TracedOk X (s, img.refresh s) where
  shape := hs
  data := hd.refresh hs
  image := {
    absent := fun pid page he => by simp [Image.refresh, he]
    loading := by
      intro pid hphase page
      simp only [Image.refresh]
      split
      · rfl
      · rename_i e he
        have hload := ((hs.entries.entry _ _ _ he).loading hphase).1
        rw [hl pid hphase page]
        simp [← hs.isLoaded_eq he, hload] }
  seen pid page hp := by
    obtain ⟨e, he, -⟩ := (hs.frames.loaded pid page).mp hp
    simp only [Image.refresh, he]
    cases img pid page with
    | some d => exact ⟨d, rfl⟩
    | none => exact ⟨_, if_pos hp⟩

/-! ## Steps and runs -/

theorem Shape.initial (hi : Initial s) : Shape s none := by
  have hspte : ∀ q r, s.spte q r = none := fun q r => by simp [State.spte, hi.procs]
  have hpte : ∀ q r, s.pte q r = {} := fun q r => by simp [State.pte, hi.procs, PageDir.pte]
  constructor
  case frames =>
    exact ⟨by simp [hspte, hpte], by simp [hspte], by simp [hpte], by simp [hi.frameTable],
      by simp [hi.frameTable], by simp⟩
  case entries => exact ⟨by simp [hspte], by simp [hspte]⟩
  case slots => exact ⟨by simp [hspte], by simp [SwappedOut, hspte], by simp [SwappedOut, hspte]⟩
  case deny => exact fun f => ⟨[], List.nodup_nil, by simp [hi.procs], by simp⟩
  case dead => simp [hi.procs]

/-- A store changes the page and its image in the same way. -/
theorem DataOk.userStore {addr : Nat} {v : UInt8} (hs : Shape s none)
    (hd : DataOk X img s) (hseen : img pid (addr / PGSIZE) = some d)
    (hok : SoleWriter X s (.store pid addr v)) (hn : next s (.store pid addr v) = some s') :
    DataOk X (img.store (.store pid addr v)) s' := by
  obtain ⟨-, hp, hw, rfl⟩ := store_eq hn
  constructor
  case page =>
    intro q r e he
    rw [State.spte_setPte, State.spte_setMem] at he
    have hpage := hd.page q r e he
    by_cases hqr : q = pid ∧ r = addr / PGSIZE
    · obtain ⟨rfl, rfl⟩ := hqr
      simp only [State.pte_setPte, Image.store, and_self, if_true]
      rw [hseen] at hpage ⊢
      refine ⟨?_, ?_, ?_⟩
      · rintro _ ⟨⟩ off hoff hcov
        have himg := hpage.image d rfl off hoff hcov
        simp only [hp, if_true] at himg ⊢
        show update s.mem _ _ _ off = _
        rw [update_self]
        simp only [update_apply]
        split
        · rfl
        · exact himg
      · intro _ hsource hkeep hdirty
        cases hm : e.mapping with
        | none =>
          have := hs.frames.writable q _ e he hp
          rw [hw, hkeep hm] at this
          cases this
        | some m =>
          have := hdirty (by simp [hm])
          cases this
      · intro hl
        rw [hs.isLoaded_eq he, hp] at hl
        cases hl
    · have hpte : ((s.setMem (s.pte pid (addr / PGSIZE)).frame
          (update (s.mem (s.pte pid (addr / PGSIZE)).frame) (addr % PGSIZE) v)).setPte pid
            (addr / PGSIZE) { s.pte pid (addr / PGSIZE) with dirty := true }).pte q r = s.pte q r := by
        rw [State.pte_setPte, if_neg hqr, State.pte_setMem]
      rw [hpte]
      simp only [Image.store, if_neg hqr]
      refine hpage.congr (hs.isLoaded_eq he) (hs.not_zero he) ?_ (fun _ _ _ _ => rfl)
        (fun _ _ _ _ _ _ => rfl)
      intro hpr off _
      have hne : (s.pte q r).frame ≠ (s.pte pid (addr / PGSIZE)).frame :=
        fun heq => hqr (hs.frames.frame_inj hpr hp heq)
      show update s.mem _ _ _ off = _
      rw [update_of_ne hne]
  case exclusive =>
    intro q r e m he hm hX hpr hdi q' r' e' m' he' hm' hf
    rw [State.spte_setPte, State.spte_setMem] at he he'
    by_cases hqr : q = pid ∧ r = addr / PGSIZE
    · obtain ⟨rfl, rfl⟩ := hqr
      exact hok e m he hm hX q' r' e' m' he' hm' hf
    · rw [State.pte_setPte, if_neg hqr, State.pte_setMem] at hpr hdi
      exact hd.exclusive q r e m he hm hX hpr hdi q' r' e' m' he' hm' hf

/-- Every step keeps the invariant. -/
theorem TracedOk.next {x y : State × Image} {a : Step} (hx : TracedOk X x)
    (hok : SoleWriter X x.1 a) (hn : traced.next x a = some y) : TracedOk X y := by
  obtain ⟨s', hs', rfl⟩ := Option.map_eq_some_iff.mp hn
  by_cases hstore : ∃ pid addr v, a = .store pid addr v
  · obtain ⟨pid, addr, v, rfl⟩ := hstore
    obtain ⟨hphase, hp, -, heq⟩ := store_eq hs'
    obtain ⟨d, hd⟩ := hx.seen pid _ hp
    refine .of_refresh (hx.shape.store hs') (hx.data.userStore hx.shape hd hok hs') ?_
    intro q hq r
    have hq' : (x.1.procs q).phase = .loading := by
      rw [heq] at hq
      simpa [State.setMem] using hq
    have hne : ¬ (q = pid ∧ r = addr / PGSIZE) := by
      rintro ⟨rfl, -⟩
      rw [hphase] at hq'
      cases hq'
    simp only [Image.store, if_neg hne]
    exact hx.image.loading q hq' r
  · have hsame : x.2.store a = x.2 := by
      cases a with
      | store pid addr v => exact absurd ⟨pid, addr, v, rfl⟩ hstore
      | _ => rfl
    rw [hsame]
    have hcases : Effects X x.2 (x.1, none) (s', none) ∨ _ :=
      Effects.of_next hx.shape hx.image hok (fun pid addr v h => hstore ⟨pid, addr, v, h⟩) hs'
    rcases hcases with heff | ⟨pid, s₁, -, heff, -, hr⟩
    · exact .of_refresh (hx.shape.effects heff) (hx.data.effects hx.shape heff)
        (heff.loading hx.image.loading)
    · have hs₁ := hx.shape.effects heff
      refine .of_refresh (hs₁.reap hr) ((hx.data.effects hx.shape heff).reap hs₁ hr) ?_
      intro q hq
      by_cases hqp : q = pid
      · simp [hr.procs, hqp] at hq
      · exact heff.loading hx.image.loading q (by simpa [hr.procs, hqp] using hq)

theorem TracedOk.of_reaches {x : State × Image}
    (h : traced.Reaches (fun x a => SoleWriter X x.1 a) x) : TracedOk X x := by
  refine System.Reaches.invariant ?_ (fun x a y hx hok hn => hx.next hok hn) h
  rintro ⟨s, img⟩ ⟨hi, himg⟩
  have hprocs : ∀ q, s.procs q = {} := hi.procs
  have hspte : ∀ q r, s.spte q r = none := fun q r => by simp [State.spte, hprocs]
  exact ⟨Shape.initial hi, ⟨by simp [hspte], by simp [hspte]⟩, ⟨fun pid page _ => himg pid page,
    fun pid _ page => himg pid page⟩, by simp [State.pte, hprocs, PageDir.pte]⟩

/-- Paging preserves memory: a load returns the byte that the image of memory
    has, that is the one last stored there or, if there was no store, the one
    the page had when it was first installed.  Of a page of a mapping this
    holds for the bytes that come from its file, if nothing but the mapping
    writes the file. -/
theorem load_returns_last_stored {X : Set FileId} {s : State} {img : Image}
    (h : traced.Reaches (fun x a => SoleWriter X x.1 a) (s, img)) {pid : Pid} {addr : Nat}
    {v : UInt8} (hload : userLoad s pid addr = some v)
    (hcov : ∀ e, s.spte pid (addr / PGSIZE) = some e → Covered X e (addr % PGSIZE)) :
    ∃ d, img pid (addr / PGSIZE) = some d ∧ d (addr % PGSIZE) = v := by
  have hok := TracedOk.of_reaches h
  simp only [userLoad] at hload
  split at hload
  · rename_i hp
    simp only [Bool.and_eq_true] at hp
    cases hload
    obtain ⟨d, hd⟩ := hok.seen pid _ hp.2
    obtain ⟨e, he, -⟩ := (hok.shape.frames.loaded pid _).mp hp.2
    have himg := (hok.data.page pid _ e he).image d hd (addr % PGSIZE)
      (Nat.mod_lt _ (by decide)) (hcov e he)
    simp only [hp.2, if_true] at himg
    exact ⟨d, hd, himg.symm⟩
  · cases hload

/-- A stack page keeps its bytes when it is evicted to make room for a second
    one and faulted in again. -/
theorem load_returns_last_stored_stack :
    ∃ s img, traced.Reaches (fun x a => SoleWriter ∅ x.1 a) (s, img) ∧
      userLoad s 0 0xBFFFF004 = some 7 ∧
      ∃ d, img 0 (0xBFFFF004 / PGSIZE) = some d ∧ d (0xBFFFF004 % PGSIZE) = 7 := by
  have hinit : traced.start (oneFrame 2, fun _ _ => none) := ⟨initial_oneFrame 2, fun _ _ => rfl⟩
  obtain ⟨⟨s, img⟩, hreach, hp⟩ := System.reachable_of_run hinit
    (l := [.spawn 0 0, .setupStack 0 granted, .store 0 0xBFFFF004 7,
      .fault 0 ⟨0xBFFFE000, 0xBFFFE000, true, true⟩ true granted,
      .fault 0 ⟨0xBFFFF004, 0xBFFFF004, true, true⟩ false granted])
    (p := fun x => userLoad x.1 0 0xBFFFF004 == some 7 &&
      (x.1.spte 0 (0xBFFFF004 / PGSIZE)).all fun e => e.mapping.isNone) (by decide)
  simp only [Bool.and_eq_true, beq_iff_eq] at hp
  have hsole : traced.Reaches (fun x a => SoleWriter ∅ x.1 a) (s, img) :=
    hreach.mono fun x a _ _ => by cases a <;> simp [SoleWriter]
  refine ⟨s, img, hsole, hp.1, load_returns_last_stored hsole hp.1 ?_⟩
  intro e he m hm
  rw [he] at hp
  simp [hm] at hp

end Pintos.Vm
