/-
  Pintos.Vm.StoreKept

  Eviction against the stores of the owner.  The handlers follow the proof
  outline, so its invariant holds along every run in which nothing that the
  outline does not allow happens: then what was last stored at an address is
  what a load returns.

  A store is lost when the evictor has already taken its copy of the page, or
  has found a mapped page clean, and has not cleared the page table entry yet.
  In the file branch the entry is cleared before the page is marked as not
  loaded; an owner that faults in between installs a frame without reading the
  page into it.
-/

import Pintos.Vm.OutlineSound

namespace Pintos.Vm

open Pintos.Base Function

/-! ## Stores -/

/-- A byte is stored. -/
def Stored.set (st : Stored) (pid : Pid) (addr : Nat) (v : UInt8) : Stored := fun p r off =>
  if p = pid ∧ r = addr / PGSIZE ∧ off = addr % PGSIZE then some v else st p r off

/-- No evictor has taken its copy of the page and has still to unmap it. -/
def NotCopied (x : Machine) (pid : Pid) (page : PageNo) : Prop :=
  ∀ q page' existing fte pc e, x.pc q = .evict page' existing fte page pc → fte.owner = pid →
    x.vm.spte pid page = some e → ByteView.copied e.mapping.isSome pc = false

/-- A byte of a page of a mapping has a place in the file that belongs to no
    other mapping. -/
def OnlyMapping (s : State) (pid : Pid) (addr : Nat) : Prop :=
  ∀ e m, s.spte pid (addr / PGSIZE) = some e → e.mapping = some m → addr % PGSIZE < e.readBytes ∧
    ∀ q r e' m', s.spte q r = some e' → e'.mapping = some m' → m'.file = m.file →
      q = pid ∧ m' = m

section

variable {x y : Machine} {s s' : State} {st : Stored} {pid : Pid} {addr : Nat} {v : UInt8}

theorem userStore_eq (h : userStore s pid addr v = some s') :
    (s.pte pid (addr / PGSIZE)).present = true ∧ (s.pte pid (addr / PGSIZE)).writable = true ∧
      s' = (s.setMem (s.pte pid (addr / PGSIZE)).frame
        (update (s.mem (s.pte pid (addr / PGSIZE)).frame) (addr % PGSIZE) v)).setPte pid
          (addr / PGSIZE) { s.pte pid (addr / PGSIZE) with dirty := true } := by
  simp only [userStore] at h
  split at h
  · rename_i hw
    simp only [Bool.and_eq_true] at hw
    exact ⟨hw.1.2, hw.2, (Option.some.inj h).symm⟩
  · cases h

theorem MappingsOk.store (h : MappingsOk s st) (honly : OnlyMapping s pid addr) :
    MappingsOk s (st.set pid addr v) := by
  refine { h with stored := ?_ }
  intro p r e m off hs hm hst
  simp only [Stored.set] at hst
  split at hst
  · rename_i heq
    obtain ⟨rfl, rfl, rfl⟩ := heq
    exact honly e m hs hm
  · exact h.stored p r e m off hs hm hst

/-- What a store does to the view. -/
theorem view_store {g : Ghost} {off : Nat} (hp : (s.pte pid (addr / PGSIZE)).present = true)
    (hs : s' = (s.setMem (s.pte pid (addr / PGSIZE)).frame
        (update (s.mem (s.pte pid (addr / PGSIZE)).frame) (addr % PGSIZE) v)).setPte pid
          (addr / PGSIZE) { s.pte pid (addr / PGSIZE) with dirty := true }) :
    view s' (st.set pid addr v) g off =
      { view s st g off with
        mem := update (view s st g off).mem (s.pte pid (addr / PGSIZE)).frame
          (if off = addr % PGSIZE then v else s.mem (s.pte pid (addr / PGSIZE)).frame off)
        dirty := updPage (view s st g off).dirty pid (addr / PGSIZE) true
        st := fun p r => st.set pid addr v p r off } := by
  subst hs
  rw [view_setPte, view_setMem]
  have hmap := updPage_eq_self (view s st g off).map pid (addr / PGSIZE)
  have hwritable := updPage_eq_self (view s st g off).writable pid (addr / PGSIZE)
  have hget : (view s st g off).map pid (addr / PGSIZE) = some (s.pte pid (addr / PGSIZE)).frame := by
    show pagedirGetPage s pid (addr / PGSIZE) = _
    rw [pagedirGetPage, if_pos hp]
  rw [hget] at hmap
  simp only [hp, if_true, update_apply]
  simp only [view] at hmap hwritable ⊢
  rw [hmap, hwritable]

theorem Outlined.of_store (hok : x.ledger.Ok) (h : Outlined x st) (hpc : x.pc pid = .user)
    (hcopied : NotCopied x pid (addr / PGSIZE)) (hs : userStore x.vm pid addr v = some s') :
    Outlined { x with vm := s' } (st.set pid addr v) := by
  obtain ⟨g, hg⟩ := h
  obtain ⟨hp, hw, hs'⟩ := userStore_eq hs
  have hmap : pagedirGetPage x.vm pid (addr / PGSIZE) =
      some (x.vm.pte pid (addr / PGSIZE)).frame := by
    rw [pagedirGetPage, if_pos hp]
  refine ⟨g, fun off hoff => ?_⟩
  show (view s' (st.set pid addr v) g off).Inv x.pc
  rw [view_store hp hs']
  by_cases heq : off = addr % PGSIZE
  · have hset : (fun p r => st.set pid addr v p r off) =
        updPage (view x.vm st g off).st pid (addr / PGSIZE) (some v) := by
      funext p r
      simp only [Stored.set, updPage, heq, and_true]
      split <;> rfl
    rw [hset, if_pos heq]
    refine (hg off hoff).store hpc ?_ hmap hw ?_ hcopied
    · intro p r hpr
      have := hok.map_inj (p := (p, r)) (q := (pid, addr / PGSIZE)) hpr hmap
      simpa using this
    · intro q _ hq
      have hown : (x.ledger.role q).owned = some (x.vm.pte pid (addr / PGSIZE)).frame := by
        show (x.pc q).role.owned = _
        rw [hq]
        rfl
      exact hok.owned_unmapped (p := (pid, addr / PGSIZE)) hown hmap
  · -- at another offset only the dirty bit changes
    have hset : (fun p r => st.set pid addr v p r off) = (view x.vm st g off).st := by
      funext p r
      simp only [Stored.set, heq, and_false, if_false]
      rfl
    have hmem : update (view x.vm st g off).mem (x.vm.pte pid (addr / PGSIZE)).frame
        (x.vm.mem (x.vm.pte pid (addr / PGSIZE)).frame off) = (view x.vm st g off).mem :=
      update_eq_self ..
    rw [hset, if_neg heq, hmem]
    refine (hg off hoff).touch fun p r hd => ?_
    simp only [updPage] at hd
    split at hd
    · cases hd
    · exact hd

end

/-! ## Runs -/

/-- The machine with the bytes that the processes have stored. -/
def recorded : System (Machine × Stored) Move where
  start x := machine.start x.1 ∧ x.2 = fun _ _ _ => none
  next x m := (machineNext x.1 m).map fun y =>
    (y, match m with
      | .store pid addr v => x.2.set pid addr v
      | _ => x.2)

/-- A condition on steps.  Victims are installed.  A process does not store to
    a page while an evictor has taken its copy and has still to unmap it; and a
    page of a mapping it stores to is the only way to the bytes it stores.  A
    handler does not test `is_loaded` while the evictor of the page is about to
    clear it. -/
def Undisturbed (x : Machine) (m : Move) : Prop :=
  victimInstalled x m = true ∧
    match m with
    | .store pid addr _ => NotCopied x pid (addr / PGSIZE) ∧ OnlyMapping x.vm pid addr
    | .fault _ _ _ => True
    | .run pid _ => ∀ page existing k, x.pc pid = .fill page existing k .testFile →
        Settled x pid page

/-- The invariant of the runs. -/
structure Kept (x : Machine) (st : Stored) : Prop where
  ledger : x.ledger.Ok
  mappings : MappingsOk x.vm st
  outlined : Outlined x st

section

variable {x y : Machine} {st : Stored} {pid : Pid} {m : Move}

theorem Outlined.of_run {a : Allocs} (hok : x.ledger.Ok) (hmap : MappingsOk x.vm st)
    (h : Outlined x st) (hcond : Undisturbed x (.run pid a)) (hn : runNext x pid a = some y) :
    Outlined y st := by
  cases hpc : x.pc pid with
  | user => simp [runNext, hpc] at hn
  | find f => exact h.of_find hpc hn
  | getPage page existing => exact h.of_getPage hok hpc hn
  | popLru page existing => exact h.of_pop hok hpc hcond.1 hn
  | evict page existing fte vpage pc => exact h.of_evict hok hmap hpc hn
  | add page existing k => exact h.of_add hpc hn
  | fill page existing k pc =>
    refine h.of_fill hok hmap hpc ?_ hn
    rintro rfl
    exact hcond.2 page existing k hpc

/-- A page that faults because it is not present is not mapped. -/
theorem Outlined.of_fault {f : PageFault} {write : Bool} (h : Outlined x st)
    (hpc : x.pc pid = .user) (hf : faults x.vm pid f write = true) :
    Outlined (x.goto pid x.vm (.find f)) st := by
  obtain ⟨g, hg⟩ := h
  refine .goto (g := g) fun off hoff => (hg off hoff).plainStep (by simp [hpc]) rfl rfl
    (hg off hoff).base (fun _ _ => id) ?_
  intro hnp huser
  simp only [faults, huser, hnp, Bool.not_true, Bool.false_or, Bool.and_eq_true, beq_iff_eq] at hf
  have hp : (x.vm.pte pid (f.faultAddr / PGSIZE)).present = false := by
    simpa using hf.1.symm
  show pagedirGetPage x.vm pid (f.faultAddr / PGSIZE) = none
  simp [pagedirGetPage, hp]

/-- Where the machine starts, a swapped-out page has its slot and nobody is in
    the handler. -/
theorem Outlined.start (h : machine.start x) : Outlined x fun _ _ _ => none := by
  have hshape := Shape.of_reachable h.1
  classical
  let own : Nat → Option SlotUser := fun i =>
    if hi : ∃ pr : Pid × PageNo, SwappedOut x.vm pr.1 pr.2 i then
      some (.page hi.choose.1 hi.choose.2)
    else none
  refine ⟨⟨own, fun _ _ => none, fun _ _ => none⟩, fun off _ => ⟨?_, ⟨by simp [view], by simp [view]⟩,
    fun q => by rw [h.2 q]; trivial⟩⟩
  constructor
  case kind =>
    intro p r e hs hm
    obtain ⟨m, hm⟩ := Option.isSome_iff_exists.mp hm
    exact ((hshape.entries.entry p r e hs).mapping m hm).1
  case entry =>
    intro p r hm
    have hp : (x.vm.pte p r).present = true := by
      by_contra hp
      exact hm (by simp [view, pagedirGetPage, hp])
    obtain ⟨e, he, -⟩ := (hshape.frames.loaded p r).mp hp
    exact ⟨e, he, fun hw => by rw [← hshape.frames.writable p r e he hp]; exact hw⟩
  case used =>
    intro i hi
    simp only [view, own] at hi
    split at hi
    · rename_i hex
      exact hshape.slots.used _ _ i hex.choose_spec
    · exact absurd rfl hi
  case swapped =>
    intro p r e i hs hload hsource hi _
    have hout : SwappedOut x.vm p r i := ⟨e, hs, hload, hsource, hi⟩
    have hex : ∃ pr : Pid × PageNo, SwappedOut x.vm pr.1 pr.2 i := ⟨(p, r), hout⟩
    obtain ⟨h₁, h₂⟩ := hshape.slots.inj _ _ _ _ i hex.choose_spec hout
    simp only [view, own, dif_pos hex, h₁, h₂]
  all_goals simp [view]

theorem Kept.start (h : recorded.start (x, st)) : Kept x st := by
  obtain ⟨h, rfl⟩ := h
  exact ⟨ledger_start h, .of_shape (Shape.of_reachable h.1), .start h⟩

theorem Kept.step {z : Machine × Stored} (h : Kept x st) (hcond : Undisturbed x m)
    (hn : recorded.next (x, st) m = some z) : Kept z.1 z.2 := by
  obtain ⟨y, hy, rfl⟩ := Option.map_eq_some_iff.mp hn
  have hledger : y.ledger.Ok := by
    rcases FrameStep.of_next h.ledger hcond.1 hy with heq | hstep
    · rw [heq]
      exact h.ledger
    · exact h.ledger.step hstep
  have hfrom := MappingsFrom.of_next hy
  cases m with
  | store pid addr v =>
    obtain ⟨-, hcopied, honly⟩ := hcond
    refine ⟨hledger, (h.mappings.store honly).of_from hfrom, ?_⟩
    simp only [machineNext] at hy
    split at hy
    · split at hy
      · obtain ⟨s, hs, rfl⟩ := Option.map_eq_some_iff.mp hy
        exact h.outlined.of_store h.ledger ‹_› hcopied hs
      · cases hy
    · cases hy
  | fault pid f write =>
    refine ⟨hledger, h.mappings.of_from hfrom, ?_⟩
    simp only [machineNext] at hy
    split at hy
    · split at hy
      · rename_i hpc hf
        simp only [Bool.and_eq_true] at hf
        cases hy
        exact h.outlined.of_fault hpc hf.1.2
      · cases hy
    · cases hy
  | run pid a =>
    exact ⟨hledger, h.mappings.of_from hfrom, h.outlined.of_run h.ledger h.mappings hcond hy⟩

theorem Kept.of_reaches (h : recorded.Reaches (fun x m => Undisturbed x.1 m) (x, st)) :
    Kept x st := by
  have hinv : ∀ z, recorded.Reaches (fun x m => Undisturbed x.1 m) z → Kept z.1 z.2 := fun z hz =>
    System.Reaches.invariant (I := fun z : Machine × Stored => Kept z.1 z.2)
      (fun _ => Kept.start) (fun _ _ _ hk hcond hn => hk.step hcond hn) hz
  exact hinv _ h

end

/-- Eviction loses no store: in a run whose steps are undisturbed, a process
    that loads an address to which it has stored reads the byte it last stored
    there. -/
theorem load_returns_stored {x : Machine} {st : Stored}
    (h : recorded.Reaches (fun x m => Undisturbed x.1 m) (x, st)) {pid : Pid} {addr : Nat}
    {b w : UInt8} (hstored : st pid (addr / PGSIZE) (addr % PGSIZE) = some b)
    (hload : userLoad x.vm pid addr = some w) : w = b := by
  obtain ⟨g, hg⟩ := (Kept.of_reaches h).outlined
  simp only [userLoad] at hload
  split at hload
  · rename_i hp
    simp only [Bool.and_eq_true] at hp
    cases hload
    refine (hg (addr % PGSIZE) (Nat.mod_lt _ (by decide))).base.mapped pid (addr / PGSIZE) _ b ?_
      hstored
    show pagedirGetPage x.vm pid (addr / PGSIZE) = _
    rw [pagedirGetPage, if_pos hp.2]
  · cases hload

/-! ## Two processes -/

/-- The process that moves. -/
def Move.pid : Move → Pid
  | .store pid _ _ => pid
  | .fault pid _ _ => pid
  | .run pid _ => pid

/-- A step moves one process. -/
theorem machineNext_pc {x y : Machine} {m : Move} {q : Pid} (hn : machineNext x m = some y)
    (hq : q ≠ m.pid) : y.pc q = x.pc q := by
  have hgoto : ∀ s c, (x.goto m.pid s c).pc q = x.pc q := fun s c => update_of_ne hq ..
  cases m with
  | store pid addr v =>
    simp only [machineNext] at hn
    split at hn
    · split at hn
      · obtain ⟨s, -, rfl⟩ := Option.map_eq_some_iff.mp hn
        rfl
      · cases hn
    · cases hn
  | fault pid f write =>
    simp only [machineNext] at hn
    split at hn
    · split at hn <;> cases hn
      exact hgoto _ _
    · cases hn
  | run pid a =>
    simp only [machineNext, runNext] at hn
    split at hn
    · cases hn
    · split at hn
      · cases hn
        exact hgoto _ _
      · split at hn <;> cases hn <;> exact hgoto _ _
    · split at hn <;> cases hn <;> exact hgoto _ _
    · split at hn
      · cases hn
        exact hgoto _ _
      · split at hn <;> cases hn <;> exact hgoto _ _
    · obtain ⟨⟨s, n⟩, -, rfl⟩ := Option.map_eq_some_iff.mp hn
      cases n with
      | goto pc => exact hgoto _ _
      | ret k => cases k <;> exact hgoto _ _
    · split at hn <;> cases hn <;> exact hgoto _ _
    · obtain ⟨⟨s, n⟩, -, rfl⟩ := Option.map_eq_some_iff.mp hn
      cases n <;> exact hgoto _ _

def Pc.evicts : Pc → Bool
  | .evict _ _ _ _ _ => true
  | _ => false

/-- Only processes 0 and 1 move, and victims are installed; a process stores to pages that
    are not mapped, and tests `is_loaded`, while none of the two evicts. -/
def pairMove (x : Machine) (m : Move) : Bool :=
  decide (m.pid ≤ 1) && victimInstalled x m &&
    match m with
    | .store pid addr _ => !(x.pc 0).evicts && !(x.pc 1).evicts &&
        (x.vm.spte pid (addr / PGSIZE)).all (·.mapping.isNone)
    | .fault _ _ _ => true
    | .run pid _ =>
      match x.pc pid with
      | .fill _ _ _ .testFile => !(x.pc 0).evicts && !(x.pc 1).evicts
      | _ => true

/-- Such processes are undisturbed. -/
theorem Undisturbed.of_pairMove {z : Machine × Stored} {m : Move}
    (hz : recorded.Reaches (fun x m => pairMove x.1 m = true) z) (hm : pairMove z.1 m = true) :
    Undisturbed z.1 m := by
  have huser : ∀ q, 1 < q → z.1.pc q = .user := by
    refine System.Reaches.invariant (I := fun z => ∀ q, 1 < q → z.1.pc q = .user) ?_ ?_ hz
    · exact fun z hstart q _ => hstart.1.2 q
    · intro z m z' hI hm hn q hq
      obtain ⟨y, hy, rfl⟩ := Option.map_eq_some_iff.mp hn
      simp only [pairMove, Bool.and_eq_true, decide_eq_true_eq] at hm
      rw [machineNext_pc hy (Nat.ne_of_gt (Nat.lt_of_le_of_lt hm.1.1 hq))]
      exact hI q hq
  have hnone : (!(z.1.pc 0).evicts && !(z.1.pc 1).evicts) = true →
      ∀ q page existing fte vpage pc, z.1.pc q ≠ .evict page existing fte vpage pc := by
    intro h q page existing fte vpage pc hq
    simp only [Bool.and_eq_true, Bool.not_eq_true'] at h
    have hevicts : (z.1.pc q).evicts = true := by rw [hq]; rfl
    rcases Nat.lt_or_ge 1 q with hlt | hle
    · rw [huser q hlt] at hevicts
      cases hevicts
    · rcases Nat.le_one_iff_eq_zero_or_eq_one.mp hle with rfl | rfl
      · rw [h.1] at hevicts
        cases hevicts
      · rw [h.2] at hevicts
        cases hevicts
  simp only [pairMove, Bool.and_eq_true] at hm
  obtain ⟨⟨-, hvictim⟩, hm⟩ := hm
  refine ⟨hvictim, ?_⟩
  cases m with
  | store pid addr v =>
    simp only [Bool.and_eq_true] at hm
    refine ⟨fun q page' existing fte pc e hq => ?_, fun e m hs hmap => ?_⟩
    · exact absurd hq (hnone (by simpa using hm.1) q _ _ _ _ _)
    · simp [hs, hmap] at hm
  | fault pid f write => trivial
  | run pid a =>
    intro page existing k hfill q page' existing' fte hq
    simp only [hfill] at hm
    exact absurd hq (hnone hm q _ _ _ _ _)

/-- A process stores a byte in its stack page; another process has the page swapped out
    by growing its stack.  Before the second one has its frame, the first one faults: it
    evicts a page of the other one and reads its own page in again. -/
theorem load_returns_stored_swapped :
    ∃ x st, recorded.Reaches (fun x m => Undisturbed x.1 m) (x, st) ∧
      st 0 (0xBFFFF004 / PGSIZE) (0xBFFFF004 % PGSIZE) = some 7 ∧
      ∃ w, userLoad x.vm 0 0xBFFFF004 = some w ∧ w = 7 := by
  have hstart : recorded.start (⟨twoStacks, fun _ => .user⟩, fun _ _ _ => none) :=
    ⟨twoStacks_start, rfl⟩
  obtain ⟨⟨x, st⟩, hreach, hp⟩ := System.reaches_of_run (fun x m => pairMove x.1 m = true)
    hstart
    (l := .store 0 0xBFFFF004 7 ::
      .fault 1 ⟨0xBFFFE000, 0xBFFFE000, true, true⟩ true :: statements 12 1 0 ++
      .fault 0 ⟨0xBFFFF004, 0xBFFFF004, true, true⟩ false :: statements 2 0 0 ++
      statements 5 1 0 ++ statements 21 0 0)
    (p := fun z => z.2 0 (0xBFFFF004 / PGSIZE) (0xBFFFF004 % PGSIZE) == some 7 &&
      (userLoad z.1.vm 0 0xBFFFF004).isSome) (by decide)
  simp only [Bool.and_eq_true, beq_iff_eq] at hp
  obtain ⟨hst, hload⟩ := hp
  obtain ⟨w, hw⟩ := Option.isSome_iff_exists.mp hload
  have hkept : recorded.Reaches (fun x m => Undisturbed x.1 m) (x, st) :=
    hreach.mono fun _ _ => Undisturbed.of_pairMove
  exact ⟨x, st, hkept, hst, w, hw, load_returns_stored hkept hst hw⟩

/-- A process stores a byte in its stack page after the evictor has copied the
    page to its slot and before the evictor unmaps it.  When the process faults
    the page in again, the byte is not there. -/
theorem store_lost_while_evicted :
    ∃ x st, recorded.Reachable (x, st) ∧
      st 0 (0xBFFFF004 / PGSIZE) (0xBFFFF004 % PGSIZE) = some 7 ∧
      userLoad x.vm 0 0xBFFFF004 = some 0 := by
  have hstart : recorded.start (⟨twoStacks, fun _ => .user⟩, fun _ _ _ => none) :=
    ⟨twoStacks_start, rfl⟩
  obtain ⟨⟨x, st⟩, hreach, hp⟩ := System.reachable_of_run hstart
    (l := .fault 1 ⟨0xBFFFE000, 0xBFFFE000, true, true⟩ true :: statements 7 1 0 ++
      .store 0 0xBFFFF004 7 :: statements 10 1 0 ++
      .fault 0 ⟨0xBFFFF004, 0xBFFFF004, true, true⟩ false :: statements 23 0 0)
    (p := fun z => z.2 0 (0xBFFFF004 / PGSIZE) (0xBFFFF004 % PGSIZE) == some 7 &&
      userLoad z.1.vm 0 0xBFFFF004 == some 0) (by decide)
  simp only [Bool.and_eq_true, beq_iff_eq] at hp
  exact ⟨x, st, hreach, hp.1, hp.2⟩

end Pintos.Vm
