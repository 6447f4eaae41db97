/-
  Pintos.Vm.SwapSlots

  Who uses the swap slots.  A slot is taken when a page is swapped out and
  given back when the page is faulted in again; `process_exit` frees the
  supplemental entries of a process without giving the slots of its
  swapped-out pages back.

  So the bitmap is exact in every run in which a process that exits has no page
  in swap, and a process that exits with a page in swap leaks its slot.
-/

import Pintos.Vm.Preserve

namespace Pintos.Vm

open Pintos.Base Pintos.Lib

variable {X : Set FileId} {img : Image} {s s' : State} {h : Option Frame} {pid : Pid}
  {page : PageNo} {k : Frame} {i : Nat} {a : Step}

/-- Every used slot holds a swapped-out page. -/
def SlotsExact (s : State) : Prop := ∀ i, SlotUsed s i → ∃ pid page, SwappedOut s pid page i

namespace SlotsExact

/-- One entry changes.  A slot that is used afterwards was used before by
    another page, or holds this page now. -/
theorem change (hs : SlotsExact s) {x : Option SupPageTableEntry}
    (hspte : ∀ q r, s'.spte q r = if q = pid ∧ r = page then x else s.spte q r)
    (hused : ∀ i, SlotUsed s' i →
      SlotUsed s i ∧ ¬ SwappedOut s pid page i ∨ SwappedOut s' pid page i) : SlotsExact s' := by
  intro i hi
  rcases hused i hi with ⟨hi, hnot⟩ | hnow
  · obtain ⟨q, r, e, he, hrest⟩ := hs i hi
    have hqr : ¬ (q = pid ∧ r = page) := by
      rintro ⟨rfl, rfl⟩
      exact hnot ⟨e, he, hrest⟩
    exact ⟨q, r, e, by rw [hspte, if_neg hqr]; exact he, hrest⟩
  · exact ⟨pid, page, hnow⟩

/-- The entry that changes was not swapped out. -/
theorem change_of_not_swapped (hs : SlotsExact s) {x : Option SupPageTableEntry}
    (hspte : ∀ q r, s'.spte q r = if q = pid ∧ r = page then x else s.spte q r)
    (hslots : s'.swapSlots = s.swapSlots)
    (hold : ∀ e, s.spte pid page = some e → e.isLoaded = true ∨ e.source ≠ .swap) :
    SlotsExact s' := by
  refine hs.change hspte fun i hi => Or.inl ⟨?_, ?_⟩
  · simpa only [SlotUsed, hslots] using hi
  · rintro ⟨e, he, hload, hsource, -⟩
    rcases hold e he with h | h
    · rw [h] at hload
      cases hload
    · exact h hsource

theorem congr (hs : SlotsExact s) (hspte : ∀ q r, s'.spte q r = s.spte q r)
    (hslots : s'.swapSlots = s.swapSlots) : SlotsExact s' := by
  intro i hi
  obtain ⟨q, r, hqr⟩ := hs i (by simpa only [SlotUsed, hslots] using hi)
  exact ⟨q, r, by simpa only [SwappedOut, hspte] using hqr⟩

theorem installSwap (hs : SlotsExact s) {e : SupPageTableEntry} {b : List Bool}
    (hspte : s.spte pid page = some e) (hslot : e.swapSlotIndex = some i)
    (hslots : s.swapSlots = some b) :
    SlotsExact ((s.setSwapSlots (b.set i false)).mapFrame pid page k
      { e with isLoaded := true, swapSlotIndex := none }) := by
  refine hs.change (fun q r => State.spte_mapFrame _ pid q page r k _) ?_
  rintro j ⟨b', hb', hbit⟩
  cases hb'
  have hne : i ≠ j := by
    rintro rfl
    rw [List.getElem?_set_self'] at hbit
    cases hbi : b[i]? <;> simp [hbi] at hbit
  rw [List.getElem?_set_ne hne] at hbit
  refine Or.inl ⟨⟨b, hslots, hbit⟩, ?_⟩
  rintro ⟨e', he', -, -, hj⟩
  rw [hspte] at he'
  cases he'
  rw [hslot] at hj
  exact hne (Option.some.inj hj)

theorem evictSwap (hs : SlotsExact s) {l : List FrameTableEntry} {e : SupPageTableEntry}
    {b : List Bool} {d : PageData} (hspte : s.spte pid page = some e)
    (hload : e.isLoaded = true) (hslots : s.swapSlots = some b) :
    SlotsExact ((writeToBlock (s.setSwapSlots (b.set i true)) i d).unmapFrame l pid page
      (some { e with swapSlotIndex := some i, isLoaded := false, source := .swap })) := by
  refine hs.change (fun q r => State.spte_unmapFrame _ pid q page r l _) ?_
  rintro j ⟨b', hb', hbit⟩
  cases hb'
  by_cases hij : i = j
  · subst hij
    exact Or.inr ⟨_, by rw [State.spte_unmapFrame, if_pos ⟨rfl, rfl⟩], rfl, rfl, rfl⟩
  · rw [List.getElem?_set_ne hij] at hbit
    refine Or.inl ⟨⟨b, hslots, hbit⟩, ?_⟩
    rintro ⟨e', he', hl, -, -⟩
    rw [hspte] at he'
    cases he'
    rw [hload] at hl
    cases hl

/-- Every effect keeps the bitmap exact. -/
theorem effect {x y : Held} (hshape : Shape x.1 x.2) (hs : SlotsExact x.1)
    (he : Effect X img x y) : SlotsExact y.1 := by
  cases he with
  | alloc | free | fill | permute | writeBack | fileWrite => exact hs
  | installNew hphase hspte =>
    exact hs.change_of_not_swapped (fun q r => State.spte_mapFrame _ _ q _ r _ _) rfl
      (by simp [hspte])
  | installFile hphase hspte hload hsource =>
    exact hs.change_of_not_swapped (fun q r => State.spte_mapFrame _ _ q _ r _ _) rfl
      (by simp [hspte, hsource])
  | installSwap hphase hspte hload hsource hslot hslots => exact hs.installSwap hspte hslot hslots
  | @installStack s k pid page e hphase hspte =>
    have hrun : SlotsExact (s.setPhase pid .running) := hs.congr (by simp) rfl
    rw [State.setPhase_mapFrame]
    refine hrun.change_of_not_swapped (fun q r => State.spte_mapFrame _ _ q _ r _ _) rfl ?_
    intro e' he'
    rw [State.spte_setPhase] at he'
    exact Or.inr (by simp [((hshape.entries.entry _ _ _ he').loading hphase).2.1])
  | evictFile hl hspte hsource =>
    exact hs.change_of_not_swapped (fun q r => State.spte_unmapFrame _ _ q _ r _ _) rfl
      (by simp [hspte, hsource])
  | evictSwap hl hspte hmap hslots =>
    have hp := (hshape.frames.of_mem (hl.symm.subset (List.mem_cons_self ..))).1
    exact hs.evictSwap hspte (hshape.frames.isLoaded hspte hp) hslots
  | detach hl =>
    have hp := (hshape.frames.of_mem (hl.symm.subset (List.mem_cons_self ..))).1
    exact hs.change_of_not_swapped (fun q r => State.spte_unmapFrame _ _ q _ r _ _) rfl
      fun e he => Or.inl (hshape.frames.isLoaded he hp)
  | remove hspte hload hsource =>
    exact hs.change_of_not_swapped (fun q r => State.spte_setSpte _ _ q _ r _) rfl
      (by simp [hspte, hsource])
  | addExe _ _ hspte | addMapping _ hspte =>
    exact hs.change_of_not_swapped (fun q r => State.spte_setSpte _ _ q _ r _) rfl
      (by simp [hspte])
  | exit | stalePte => exact hs.congr (by simp) rfl
  | @mappings s _ pid =>
    refine hs.congr (fun q r => ?_) rfl
    rw [State.spte_setProc]
    split
    · rename_i hq; rw [hq]; rfl
    · rfl
  | @spawn s _ pid _ hdead =>
    refine hs.congr (fun q r => ?_) rfl
    rw [State.spte_setProc]
    split
    · rename_i hq; rw [hq, hshape.spte_dead hdead]
    · rfl

theorem effects {x y : Held} (hshape : Shape x.1 x.2) (hs : SlotsExact x.1)
    (he : Effects X img x y) : SlotsExact y.1 := by
  induction he with
  | refl => exact hs
  | tail hpre he ih => exact ih.effect (hshape.effects hpre) he

end SlotsExact

/-- Reaping a process removes its pages and no others. -/
theorem Reaped.swappedOut (hr : Reaped s s' pid) {q : Pid} {r : PageNo} :
    SwappedOut s' q r i ↔ q ≠ pid ∧ SwappedOut s q r i := by
  simp only [SwappedOut, State.spte, hr.procs, Function.update_apply]
  by_cases hq : q = pid <;> simp [hq]

/-! ## Runs -/

/-- A step is a store, a sequence of effects, or a `process_exit`: effects that
    remove pages, and then the end of the process. -/
theorem next_cases (hs : Shape s none) (hn : next s a = some s') :
    (∃ pid addr v, a = .store pid addr v) ∨
      Effects ∅ (fun _ _ => none) (s, none) (s', none) ∨
      ∃ pid s₁, (∃ grow tmp, a = .processExit pid grow tmp) ∧
        Effects ∅ (fun _ _ => none) (s, none) (s₁, none) ∧ FewerPages s s₁ ∧ Reaped s₁ s' pid := by
  by_cases hstore : ∃ pid addr v, a = .store pid addr v
  · exact Or.inl hstore
  · refine Or.inr (Effects.of_next hs ⟨fun _ _ _ => rfl, fun _ _ _ => rfl⟩ ?_ ?_ hn)
    · cases a <;> simp [SoleWriter]
    · exact fun pid addr v h => hstore ⟨pid, addr, v, h⟩

theorem Shape.next (hs : Shape s none) (hn : next s a = some s') : Shape s' none := by
  rcases next_cases hs hn with ⟨pid, addr, v, rfl⟩ | heff | ⟨pid, s₁, -, heff, -, hr⟩
  · exact hs.store hn
  · exact hs.effects heff
  · exact (hs.effects heff).reap hr

theorem Shape.of_reachable (h : system.Reachable s) : Shape s none :=
  h.invariant (fun _ => Shape.initial) fun _ _ _ hs hn => hs.next hn

/-- A condition on steps: a process that exits has no page in swap. -/
def ExitsResident (s : State) : Step → Prop
  | .processExit pid _ _ => ∀ page i, ¬ SwappedOut s pid page i
  | _ => True

theorem SlotsExact.store {addr : Nat} {v : UInt8} (hs : SlotsExact s)
    (hn : next s (.store pid addr v) = some s') : SlotsExact s' := by
  obtain ⟨-, -, -, rfl⟩ := store_eq hn
  exact hs.congr (by simp) rfl

theorem SlotsExact.reap (hs : SlotsExact s) (hr : Reaped s s' pid)
    (hnone : ∀ page i, ¬ SwappedOut s pid page i) : SlotsExact s' := by
  intro i hi
  obtain ⟨q, r, hqr⟩ := hs i (by simpa only [SlotUsed, hr.swapSlots] using hi)
  refine ⟨q, r, hr.swappedOut.mpr ⟨?_, hqr⟩⟩
  rintro rfl
  exact hnone r i hqr

theorem FewerPages.swappedOut (h : FewerPages s s') (hs : SwappedOut s' pid page i) :
    SwappedOut s pid page i := by
  obtain ⟨e, he, hrest⟩ := hs
  exact ⟨e, h _ _ _ he, hrest⟩

theorem SlotsExact.next (hshape : Shape s none) (hs : SlotsExact s)
    (hok : ExitsResident s a) (hn : next s a = some s') : SlotsExact s' := by
  rcases next_cases hshape hn with ⟨pid, addr, v, rfl⟩ | heff |
    ⟨pid, s₁, ⟨grow, tmp, rfl⟩, heff, hfewer, hr⟩
  · exact hs.store hn
  · exact hs.effects hshape heff
  · exact (hs.effects hshape heff).reap hr fun page i hi => hok page i (hfewer.swappedOut hi)

theorem SlotsExact.initial (hi : Initial s) : SlotsExact s := by
  rintro i ⟨b, hb, hbit⟩
  exact absurd (hi.swapSlots b hb true (List.mem_of_getElem? hbit)) (by simp)

theorem SlotsExact.of_reaches (h : system.Reaches ExitsResident s) : SlotsExact s :=
  (System.Reaches.invariant (I := fun s => Shape s none ∧ SlotsExact s)
    (fun _ hi => ⟨Shape.initial hi, SlotsExact.initial hi⟩)
    (fun _ _ _ hs hok hn => ⟨hs.1.next hn, hs.2.next hs.1 hok hn⟩) h).2

/-- In a run in which every process that exits has no page in swap, a slot is
    marked used exactly when one page of a live process is swapped out to it. -/
theorem slotUsed_iff_one_page (h : system.Reaches ExitsResident s) (i : Nat) :
    SlotUsed s i ↔
      ∃! p : Pid × PageNo, (s.procs p.1).phase ≠ .dead ∧ SwappedOut s p.1 p.2 i := by
  have hshape := Shape.of_reachable h.reachable
  constructor
  · intro hi
    obtain ⟨pid, page, hsw⟩ := SlotsExact.of_reaches h i hi
    refine ⟨(pid, page), ⟨(hshape.entries.entry _ _ _ hsw.choose_spec.1).live, hsw⟩, ?_⟩
    rintro ⟨q, r⟩ ⟨-, hqr⟩
    obtain ⟨rfl, rfl⟩ := hshape.slots.inj _ _ _ _ _ hqr hsw
    rfl
  · rintro ⟨⟨pid, page⟩, ⟨-, hsw⟩, -⟩
    exact hshape.slots.used _ _ _ hsw

/-- A test for `ExitsResident`: the swap area is empty whenever a process exits. -/
def exitsSwapEmpty (s : State) : Step → Bool
  | .processExit _ _ _ => (s.swapSlots.getD []).all fun used => !used
  | _ => true

theorem ExitsResident.of_swapEmpty (hs : system.Reachable s)
    (h : exitsSwapEmpty s a = true) : ExitsResident s a := by
  cases a with
  | processExit pid grow tmp =>
    intro page i hsw
    obtain ⟨b, hb, hbit⟩ := (Shape.of_reachable hs).slots.used _ _ _ hsw
    simp only [exitsSwapEmpty, hb, Option.getD_some, List.all_eq_true] at h
    exact absurd (h true (List.mem_of_getElem? hbit)) (by simp)
  | _ => trivial

/-- One process exits with its only page in memory, a second one grows its
    stack and has its first page swapped out. -/
theorem slotUsed_iff_one_page_evicted :
    ∃ s, system.Reaches ExitsResident s ∧ SlotUsed s 0 ∧
      ∃! p : Pid × PageNo, (s.procs p.1).phase ≠ .dead ∧ SwappedOut s p.1 p.2 0 := by
  have hinit : system.start (oneFrame 1) := initial_oneFrame 1
  obtain ⟨s, hreach, hp⟩ := System.reaches_of_run (fun s a => exitsSwapEmpty s a = true) hinit
    (l := [.spawn 0 0, .setupStack 0 granted, .exit 0, .processExit 0 true true,
      .spawn 1 0, .setupStack 1 granted,
      .fault 1 ⟨0xBFFFE000, 0xBFFFE010, true, true⟩ true granted])
    (p := fun s => s.swapSlots == some [true]) (by decide)
  have hres : system.Reaches ExitsResident s := hreach.mono fun _ _ hs => .of_swapEmpty hs.reachable
  have hused : SlotUsed s 0 := ⟨[true], by simpa using hp, rfl⟩
  exact ⟨s, hres, hused, (slotUsed_iff_one_page hres 0).mp hused⟩

/-- After the exit of a process that alone used a slot, nobody uses it. -/
theorem not_swappedOut_of_processExit {grow tmp : Bool} (hs : Shape s none)
    (hsw : SwappedOut s pid page i) (hn : processExit s pid grow tmp = some s') (q : Pid)
    (r : PageNo) : ¬ SwappedOut s' q r i := by
  intro hqr
  have hexit : ∃ s₁, Effects ∅ (fun _ _ => none) (s, none) (s₁, none) ∧ FewerPages s s₁ ∧
      Reaped s₁ s' pid := Effects.of_processExit hs hn
  obtain ⟨s₁, -, hfewer, hr⟩ := hexit
  obtain ⟨hne, hqr⟩ := hr.swappedOut.mp hqr
  exact hne (hs.slots.inj _ _ _ _ _ (hfewer.swappedOut hqr) hsw).1

/-- A process grows its stack, which swaps its first page out, and exits: the
    slot stays marked used although no process has a page in it. -/
theorem slot_leaks_on_exit :
    ∃ s, system.Reachable s ∧ SlotUsed s 0 ∧ ∀ pid page, ¬ SwappedOut s pid page 0 := by
  have hinit : system.start (oneFrame 1) := initial_oneFrame 1
  obtain ⟨s, hreach, hp⟩ := System.reachable_of_run hinit
    (l := [.spawn 0 0, .setupStack 0 granted, .store 0 0xBFFFF004 7,
      .fault 0 ⟨0xBFFFE000, 0xBFFFE010, true, true⟩ true granted, .exit 0])
    (p := fun s => ((s.procs 0).phase == .exiting) &&
      (processExit s 0 true true).any (fun s' => s'.swapSlots == some [true]) &&
      (s.spte 0 0xBFFFF).any fun e => !e.isLoaded && e.source == .swap &&
        e.swapSlotIndex == some 0) (by decide)
  simp only [Bool.and_eq_true, Option.any_eq_true, beq_iff_eq, Bool.not_eq_true'] at hp
  obtain ⟨⟨hphase, s', hn, hused⟩, e, he, ⟨hload, hsource⟩, hslot⟩ := hp
  have hsw : SwappedOut s 0 0xBFFFF 0 := ⟨e, he, hload, hsource, hslot⟩
  refine ⟨s', .step hreach (a := .processExit 0 true true) trivial ?_, ⟨_, hused, rfl⟩,
    not_swappedOut_of_processExit (Shape.of_reachable hreach) hsw hn⟩
  simp [system, next, hphase, hn]

end Pintos.Vm
