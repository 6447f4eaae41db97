/-
  Pintos.Vm.FrameOwners

  Who has the user frames while page faults interleave: the frames, the present
  pages, the frame table and the program counters of the handlers form a
  ledger, and the statements of the handlers follow its protocol as long as
  every victim of an eviction is a page that is installed.

  A frame is put in reach of the evictor by `fte->aux = spte`, which for a new
  page stands before `install_page`.  A victim taken in between is installed by
  its owner afterwards, although the evictor has given its frame away.
-/

import Pintos.Base.Ledger
import Pintos.Vm.Statements
import Pintos.Vm.SwapSlots

namespace Pintos.Vm

open Pintos.Base Pintos.Lib Function

/-! ## The ledger of frames -/

/-- The victim's page table entry has been cleared. -/
def EvictPc.cleared : EvictPc → Bool
  | .unloadFile | .setFile | .dropSlot | .done => true
  | _ => false

/-- What a process does with a frame. -/
def Pc.role : Pc → Role (Pid × PageNo) Frame
  | .evict _ _ fte vpage pc =>
    if pc.cleared then .holding fte.frame else .revoking (fte.owner, vpage) fte.frame
  | .add _ _ k => .holding k
  | .fill _ _ k pc =>
    match pc with
    -- the page is installed
    | .freeSlot | .forgetSlot | .backToFile | .setLoaded => .idle
    -- the frame table entry is gone
    | .removeSpte | .freePage => .holding k
    | _ => .listed k
  | _ => .idle

def frameLedger (s : State) (role : Pid → Role (Pid × PageNo) Frame) :
    Ledger Pid (Pid × PageNo) Frame where
  used := {k | s.userPool[k]? = some true}
  map p := pagedirGetPage s p.1 p.2
  table := s.frameTable.map (·.frame)
  role := role

def Machine.ledger (x : Machine) : Ledger Pid (Pid × PageNo) Frame :=
  frameLedger x.vm (Pc.role ∘ x.pc)

theorem Machine.ledger_goto (x : Machine) (pid : Pid) (s : State) (pc : Pc) :
    (x.goto pid s pc).ledger =
      frameLedger s (update (Pc.role ∘ x.pc) pid pc.role) := by
  rw [Machine.ledger, Machine.goto, comp_update]

/-- Memory changes that do not concern the ledger. -/
structure SameFrames (s s' : State) : Prop where
  userPool : s'.userPool = s.userPool
  table : s'.frameTable.map (·.frame) = s.frameTable.map (·.frame)
  page : ∀ q r, pagedirGetPage s' q r = pagedirGetPage s q r

theorem SameFrames.refl (s : State) : SameFrames s s := ⟨rfl, rfl, fun _ _ => rfl⟩

theorem SameFrames.frameLedger {s s' : State} (h : SameFrames s s')
    (role : Pid → Role (Pid × PageNo) Frame) : frameLedger s' role = frameLedger s role := by
  simp only [Vm.frameLedger, h.userPool, h.table, h.page]

theorem SameFrames.setSpte (s : State) (pid : Pid) (page : PageNo)
    (e : Option SupPageTableEntry) : SameFrames s (s.setSpte pid page e) :=
  ⟨rfl, rfl, fun q r => by simp only [pagedirGetPage, State.pte_setSpte]⟩

theorem SameFrames.exit {s s' : State} (h : SameFrames s s') (pid : Pid) :
    SameFrames s (Vm.exit s' pid) :=
  ⟨h.userPool, h.table, fun q r => by
    simpa only [pagedirGetPage, Vm.exit, State.pte_setPhase] using h.page q r⟩

/-- The machine moves as the protocol does, or not at all as far as frames are
    concerned. -/
def FrameStep (x y : Machine) : Prop := y.ledger = x.ledger ∨ Ledger.Step x.ledger y.ledger

/-- A statement that does not concern frames. -/
theorem FrameStep.same {x : Machine} {pid : Pid} {s : State} {pc : Pc} (hs : SameFrames x.vm s)
    (hpc : pc.role = (x.pc pid).role) : FrameStep x (x.goto pid s pc) := by
  left
  rw [Machine.ledger_goto, hs.frameLedger, hpc]
  show Vm.frameLedger x.vm (update _ pid ((Pc.role ∘ x.pc) pid)) = _
  rw [update_eq_self]
  rfl

/-! ## Statements that concern frames -/

section

variable {x y : Machine} {pid : Pid} {page vpage : PageNo} {existing : Bool} {k : Frame}
  {fte : FrameTableEntry} {s : State} {a : Allocs}

theorem evictBranch_cleared (e : SupPageTableEntry) (dirty : Bool) :
    (evictBranch e dirty).cleared = false := by
  simp only [evictBranch]
  split
  · split
    · rfl
    · split <;> rfl
  · rfl

theorem SameFrames.fileWriteAt (s : State) (f : FileId) (data : List UInt8) (ofs : Nat)
    (grow : Bool) : SameFrames s (fileWriteAt s f data ofs grow).2 := by
  rcases fileWriteAt_eq s f data ofs grow with h | ⟨-, h⟩ <;> rw [h]
  · exact .refl s
  · exact ⟨rfl, rfl, fun _ _ => rfl⟩

theorem SameFrames.frameTableSetAux (s : State) (k : Frame) (page : PageNo) :
    SameFrames s (frameTableSetAux s k page) := by
  refine ⟨rfl, ?_, fun _ _ => rfl⟩
  simp only [Vm.frameTableSetAux, State.setFrameTable, List.map_map]
  refine List.map_congr_left fun fte _ => ?_
  simp only [comp_apply]
  split <;> rfl

theorem SameFrames.swapFreeSlot (s : State) (i : Option Nat) : SameFrames s (swapFreeSlot s i) := by
  simp only [Vm.swapFreeSlot]
  split
  · split
    · exact ⟨rfl, rfl, fun _ _ => rfl⟩
    · exact .refl s
  · exact .refl s

/-- A store marks the page dirty and leaves it where it is. -/
theorem SameFrames.userStore {s s' : State} {addr : Nat} {v : UInt8}
    (hs : userStore s pid addr v = some s') : SameFrames s s' := by
  simp only [Vm.userStore] at hs
  split at hs
  · cases hs
    refine ⟨rfl, rfl, fun q r => ?_⟩
    simp only [pagedirGetPage, State.pte_setPte, State.pte_setMem]
    split
    · rename_i hqr
      rw [hqr.1, hqr.2]
    · rfl
  · cases hs

theorem FrameStep.exit (hs : SameFrames x.vm s) (hpc : (x.pc pid).role = .idle) :
    FrameStep x (x.exit pid s) :=
  .same (hs.exit pid) (by rw [hpc]; rfl)

/-- `palloc_get_page`. -/
theorem FrameStep.alloc (hpc : (x.pc pid).role = .idle) (hk : pallocGetPage x.vm = some (k, s)) :
    FrameStep x (x.goto pid s (.add page existing k)) := by
  obtain ⟨hfree, rfl⟩ := pallocGetPage_eq hk
  right
  have hstep : Ledger.Step x.ledger _ :=
    .alloc (a := pid) (k := k) hpc (by simp [Machine.ledger, frameLedger, hfree])
  convert hstep using 1
  rw [Machine.ledger_goto]
  have hlt : k < x.vm.userPool.length := (List.getElem?_eq_some_iff.mp hfree).1
  have hused : {j | (x.vm.userPool.set k true)[j]? = some true} =
      insert k {j | x.vm.userPool[j]? = some true} := by
    ext j
    by_cases hj : k = j
    · subst hj
      simp [hlt]
    · simp [List.getElem?_set_ne hj, Ne.symm hj]
  simp only [frameLedger, State.setMem, State.setUserPool, hused]
  rfl

/-- `palloc_free_page`. -/
theorem FrameStep.free (hpc : (x.pc pid).role = .holding k) (hk : pallocFreePage x.vm k = some s) :
    FrameStep x (x.exit pid s) := by
  have hs := pallocFreePage_eq hk
  subst hs
  right
  have hstep : Ledger.Step x.ledger _ := .free (a := pid) (k := k) hpc
  convert hstep using 1
  rw [Machine.exit, Machine.ledger_goto, (SameFrames.exit (.refl _) pid).frameLedger]
  have hused : {j | (x.vm.userPool.set k false)[j]? = some true} =
      {j | x.vm.userPool[j]? = some true} \ {k} := by
    ext j
    by_cases hj : k = j
    · subst hj
      rcases hbit : x.vm.userPool[k]? with _ | b <;> simp [List.getElem?_set_self', hbit]
    · simp [List.getElem?_set_ne hj, Ne.symm hj]
  simp only [frameLedger, State.setMem, State.setUserPool, hused]
  rfl

/-- `frame_table_add`. -/
theorem FrameStep.enter {pc : Pc} (hpc : (x.pc pid).role = .holding k) (hnext : pc.role = .listed k)
    (owner : Pid) :
    FrameStep x
      (x.goto pid (x.vm.setFrameTable (x.vm.frameTable ++ [⟨k, owner, none⟩])) pc) := by
  right
  have hstep : Ledger.Step x.ledger _ := .enter (a := pid) (k := k) hpc
  convert hstep using 1
  rw [Machine.ledger_goto, hnext]
  simp only [frameLedger, State.setFrameTable, List.map_append, List.map_singleton]
  rfl

/-- `frame_table_remove`. -/
theorem FrameStep.leave {pc : Pc} (hok : x.ledger.Ok) (hpc : (x.pc pid).role = .listed k)
    (hnext : pc.role = .holding k) : FrameStep x (x.goto pid (frameTableRemove x.vm k) pc) := by
  right
  obtain ⟨fte, hmem, hfte⟩ := List.mem_map.mp (hok.listed hpc)
  obtain ⟨y, l₁, l₂, -, hy, hsplit, herase⟩ :=
    List.exists_of_eraseP hmem (p := fun fte => decide (fte.frame = k)) (by simpa using hfte)
  have hyk : y.frame = k := by simpa using hy
  have htable : (x.vm.frameTable.map (·.frame)).Perm
      (k :: (frameTableRemove x.vm k).frameTable.map (·.frame)) := by
    simp only [frameTableRemove, State.setFrameTable, herase]
    rw [hsplit, ← hyk]
    simp
  have hstep : Ledger.Step x.ledger _ := .leave (a := pid) (k := k) hpc htable
  convert hstep using 1
  rw [Machine.ledger_goto, hnext]
  rfl

/-- `install_page`. -/
theorem FrameStep.install {pc : Pc} {writable : Bool} (hpc : (x.pc pid).role = .listed k)
    (hnext : pc.role = .idle) (hfree : (x.vm.pte pid page).present = false) :
    FrameStep x (x.goto pid (x.vm.setPte pid page ⟨true, k, writable, false⟩) pc) := by
  right
  have hstep : Ledger.Step x.ledger _ :=
    .install (a := pid) (k := k) (p := (pid, page)) hpc
      (by simp [Machine.ledger, frameLedger, pagedirGetPage, hfree])
  convert hstep using 1
  rw [Machine.ledger_goto, hnext]
  have hmap : (fun p : Pid × PageNo =>
      pagedirGetPage (x.vm.setPte pid page ⟨true, k, writable, false⟩) p.1 p.2) =
      update (fun p : Pid × PageNo => pagedirGetPage x.vm p.1 p.2) (pid, page)
        (some k) := by
    funext p
    obtain ⟨q, r⟩ := p
    simp only [pagedirGetPage, State.pte_setPte, update_apply, Prod.mk.injEq]
    split <;> rfl
  simp only [frameLedger, hmap]
  rfl

/-- `frame_table_pop_lru` of an entry whose page is installed. -/
theorem FrameStep.pop {l : List FrameTableEntry} (hpc : (x.pc pid).role = .idle)
    (hl : x.vm.frameTable.Perm (fte :: l))
    (hmap : pagedirGetPage x.vm fte.owner vpage = some fte.frame) :
    FrameStep x
      (x.goto pid (x.vm.setFrameTable l) (.evict page existing fte vpage .testDirty)) := by
  right
  have hstep : Ledger.Step x.ledger _ :=
    .pop (a := pid) (k := fte.frame) (p := (fte.owner, vpage)) hpc (hl.map _) hmap
  convert hstep using 1
  rw [Machine.ledger_goto]
  rfl

/-- `frame_table_insert` of a victim that could not be evicted. -/
theorem FrameStep.push {p : Pid × PageNo} (hpc : (x.pc pid).role = .revoking p fte.frame) :
    FrameStep x (x.exit pid (x.vm.setFrameTable (x.vm.frameTable ++ [fte]))) := by
  right
  have hstep : Ledger.Step x.ledger _ := .push (a := pid) (k := fte.frame) hpc
  convert hstep using 1
  rw [Machine.exit, Machine.ledger_goto, (SameFrames.exit (.refl _) pid).frameLedger]
  simp only [frameLedger, State.setFrameTable, List.map_append, List.map_singleton]
  rfl

/-- `pagedir_clear_page` of the victim. -/
theorem FrameStep.revoke {pc : Pc} {owner : Pid} (hok : x.ledger.Ok)
    (hpc : (x.pc pid).role = .revoking (owner, vpage) k) (hnext : pc.role = .holding k) :
    FrameStep x (x.goto pid (pagedirClearPage x.vm owner vpage) pc) := by
  right
  have hstep : Ledger.Step x.ledger _ := .revoke (a := pid) hpc
  convert hstep using 1
  rw [Machine.ledger_goto, hnext]
  have hp : (x.vm.pte owner vpage).present = true := by
    have hmap : pagedirGetPage x.vm owner vpage = some k := (hok.revoking hpc).1
    by_contra hp
    simp [pagedirGetPage, hp] at hmap
  have hmap : (fun p : Pid × PageNo =>
      pagedirGetPage (pagedirClearPage x.vm owner vpage) p.1 p.2) =
      update (fun p : Pid × PageNo => pagedirGetPage x.vm p.1 p.2) (owner, vpage)
        none := by
    funext p
    obtain ⟨q, r⟩ := p
    rw [pagedirClearPage, if_pos hp]
    simp only [pagedirGetPage, State.pte_setPte, update_apply, Prod.mk.injEq]
    split <;> rfl
  have hrest : (pagedirClearPage x.vm owner vpage).userPool = x.vm.userPool ∧
      (pagedirClearPage x.vm owner vpage).frameTable = x.vm.frameTable := by
    rw [pagedirClearPage, if_pos hp]
    exact ⟨rfl, rfl⟩
  simp only [frameLedger, hmap, hrest]
  rfl

/-! ## The handler follows the protocol -/

theorem FrameStep.of_evict {pc : EvictPc} (hok : x.ledger.Ok)
    (hpc : x.pc pid = .evict page existing fte vpage pc) (hn : runNext x pid a = some y) :
    FrameStep x y := by
  have hrole : (x.pc pid).role = (Pc.evict page existing fte vpage pc).role := by rw [hpc]
  simp only [runNext, hpc] at hn
  obtain ⟨r, hr, rfl⟩ := Option.map_eq_some_iff.mp hn
  cases pc with
  | testDirty =>
    cases hr
    exact .same (.refl _) hrole.symm
  | testSource dirty =>
    obtain ⟨e, -, rfl⟩ := Option.map_eq_some_iff.mp hr
    refine .same (.refl _) ?_
    rw [hrole]
    simp only [Pc.role, evictBranch_cleared]
    rfl
  | writeFile =>
    obtain ⟨e, -, rfl⟩ := Option.map_eq_some_iff.mp hr
    refine .same (.fileWriteAt _ _ _ _ _) ?_
    rw [hrole]
    split <;> rfl
  | clearFile =>
    cases hr
    exact .revoke hok hrole rfl
  | clearSwap =>
    cases hr
    exact .revoke hok hrole rfl
  | unloadFile | setFile | dropSlot | setSlot | unloadSwap | setSwap =>
    obtain ⟨e, -, rfl⟩ := Option.map_eq_some_iff.mp hr
    exact .same (.setSpte _ _ _ _) hrole.symm
  | takeSlot =>
    obtain ⟨b, -, rfl⟩ := Option.map_eq_some_iff.mp hr
    cases bitmapScanAndFlip b 0 1 false with
    | none => exact .same (.refl _) hrole.symm
    | some r => exact .same ⟨rfl, rfl, fun _ _ => rfl⟩ hrole.symm
  | copyOut index =>
    cases hr
    exact .same ⟨rfl, rfl, fun _ _ => rfl⟩ hrole.symm
  | reinsert =>
    cases hr
    exact .push hrole
  | done =>
    cases hr
    exact .same (.refl _) hrole.symm

theorem FrameStep.of_fill {pc : FillPc} (hok : x.ledger.Ok)
    (hpc : x.pc pid = .fill page existing k pc) (hn : runNext x pid a = some y) :
    FrameStep x y := by
  have hrole : (x.pc pid).role = (Pc.fill page existing k pc).role := by rw [hpc]
  simp only [runNext, hpc] at hn
  obtain ⟨r, hr, rfl⟩ := Option.map_eq_some_iff.mp hn
  cases pc with
  | newEntry =>
    simp only [fillStep, supPageTableAdd] at hr
    split at hr
    · cases hr
      exact .same (.refl _) hrole.symm
    · rename_i hadd
      cases hr
      split at hadd
      · cases hadd
        exact .same (.refl _) hrole.symm
      · split at hadd
        · cases hadd
          exact .same (.setSpte _ _ _ _) hrole.symm
        · cases hadd
  | testFile | testSwap =>
    obtain ⟨e, -, rfl⟩ := Option.map_eq_some_iff.mp hr
    refine .same (.refl _) ?_
    rw [hrole]
    split <;> rfl
  | readFile =>
    obtain ⟨e, -, rfl⟩ := Option.map_eq_some_iff.mp hr
    by_cases hlen : (fileReadAt x.vm e.file e.readBytes e.ofs).length ≠ e.readBytes
    · simp only [if_pos hlen]
      exact .same (.refl _) hrole.symm
    · simp only [if_neg hlen]
      exact .same ⟨rfl, rfl, fun _ _ => rfl⟩ hrole.symm
  | reclaim =>
    obtain ⟨e, -, rfl⟩ := Option.map_eq_some_iff.mp hr
    cases hread : swapReclaimPage x.vm e k with
    | none => exact .same (.refl _) hrole.symm
    | some s =>
      simp only [swapReclaimPage] at hread
      split at hread
      · cases hread
      · obtain ⟨d, -, rfl⟩ := Option.map_eq_some_iff.mp hread
        exact .same ⟨rfl, rfl, fun _ _ => rfl⟩ hrole.symm
  | setReclaimed =>
    obtain ⟨e, -, rfl⟩ := Option.map_eq_some_iff.mp hr
    exact .same (.refl _) hrole.symm
  | setAux reclaimed =>
    cases hr
    exact .same (.frameTableSetAux _ _ _) hrole.symm
  | install reclaimed =>
    obtain ⟨e, -, hr⟩ := Option.bind_eq_some_iff.mp hr
    obtain ⟨i, hi, rfl⟩ := Option.map_eq_some_iff.mp hr
    rcases installPage_cases x.vm pid page k e.writable a.pageTable with h | h | ⟨hfree, h⟩ <;>
      rw [h] at hi <;> cases hi
    · exact .same (.refl _) hrole.symm
    · refine .install hrole ?_ hfree
      cases reclaimed <;> rfl
  | freeSlot =>
    obtain ⟨e, -, rfl⟩ := Option.map_eq_some_iff.mp hr
    exact .same (.swapFreeSlot _ _) hrole.symm
  | forgetSlot | backToFile | setLoaded =>
    obtain ⟨e, -, rfl⟩ := Option.map_eq_some_iff.mp hr
    exact .same (.setSpte _ _ _ _) hrole.symm
  | removeFte removeSpte =>
    cases hr
    refine .leave hok hrole ?_
    cases removeSpte <;> rfl
  | removeSpte =>
    cases hr
    exact .same (.setSpte _ _ _ _) hrole.symm
  | freePage =>
    obtain ⟨s, hs, rfl⟩ := Option.map_eq_some_iff.mp hr
    exact .free hrole hs

end

/-- A condition on steps: the frame that `frame_table_pop_lru` takes off the
    frame table is installed, that is, the page table of its owner maps the
    page to it. -/
def victimInstalled (x : Machine) : Move → Bool
  | .run pid a =>
    match x.pc pid, frameTablePop x.vm a.victim with
    | .popLru _ _, some (fte, _) =>
      fte.aux.any fun vpage => pagedirGetPage x.vm fte.owner vpage == some fte.frame
    | _, _ => true
  | _ => true

section

variable {x y : Machine} {pid : Pid} {a : Allocs} {m : Move}

theorem FrameStep.of_pop {page : PageNo} {existing : Bool} (hpc : x.pc pid = .popLru page existing)
    (hvictim : victimInstalled x (.run pid a) = true) (hn : runNext x pid a = some y) :
    FrameStep x y := by
  have hrole : (x.pc pid).role = .idle := by rw [hpc]; rfl
  simp only [runNext, hpc] at hn
  cases hpop : frameTablePop x.vm a.victim with
  | none =>
    rw [hpop] at hn
    cases hn
    exact .exit (.refl _) hrole
  | some r =>
    obtain ⟨fte, s⟩ := r
    simp only [victimInstalled, hpc, hpop] at hvictim
    obtain ⟨l, rfl, hl, -⟩ := frameTablePop_perm hpop
    obtain ⟨vpage, haux, hmap⟩ := (Option.any_eq_true _ _).mp hvictim
    simp only [hpop, haux] at hn
    cases hn
    exact .pop hrole hl (by simpa using hmap)

/-- Every step of the machine follows the protocol, if the victims are
    installed. -/
theorem FrameStep.of_next (hok : x.ledger.Ok) (hvictim : victimInstalled x m = true)
    (hn : machineNext x m = some y) : FrameStep x y := by
  cases m with
  | store pid addr v =>
    simp only [machineNext] at hn
    split at hn
    · split at hn
      · obtain ⟨s, hs, rfl⟩ := Option.map_eq_some_iff.mp hn
        exact Or.inl ((SameFrames.userStore hs).frameLedger _)
      · cases hn
    · cases hn
  | fault pid f write =>
    simp only [machineNext] at hn
    split at hn
    · rename_i hpc
      split at hn
      · cases hn
        exact .same (.refl _) (by rw [hpc]; rfl)
      · cases hn
    · cases hn
  | run pid a =>
    cases hpc : x.pc pid with
    | user => simp [machineNext, runNext, hpc] at hn
    | find f =>
      have hrole : (x.pc pid).role = .idle := by rw [hpc]; rfl
      simp only [machineNext, runNext, hpc] at hn
      split at hn
      · cases hn
        exact .exit (.refl _) hrole
      · split at hn
        · cases hn
          exact .exit (.refl _) hrole
        · cases hn
          exact .same (.refl _) hrole.symm
    | getPage page existing =>
      have hrole : (x.pc pid).role = .idle := by rw [hpc]; rfl
      simp only [machineNext, runNext, hpc] at hn
      split at hn
      · rename_i k s hk
        cases hn
        exact .alloc hrole hk
      · cases hn
        exact .same (.refl _) hrole.symm
    | popLru page existing => exact .of_pop hpc hvictim hn
    | evict page existing fte vpage pc => exact .of_evict hok hpc hn
    | add page existing k =>
      have hrole : (x.pc pid).role = .holding k := by rw [hpc]; rfl
      simp only [machineNext, runNext, hpc, frameTableAdd] at hn
      cases hfte : a.fte with
      | false =>
        simp only [hfte, Bool.false_eq_true, if_false] at hn
        cases hn
        exact .same (.refl _) hrole.symm
      | true =>
        simp only [hfte, if_true] at hn
        cases hn
        refine .enter hrole ?_ pid
        cases existing <;> rfl
    | fill page existing k pc => exact .of_fill hok hpc hn

/-- Where the machine starts the ledger is in order. -/
theorem ledger_start (h : machine.start x) : x.ledger.Ok := by
  have hf := (Shape.of_reachable h.1).frames
  have hrole : ∀ a, x.ledger.role a = .idle := fun a => by
    show (x.pc a).role = .idle
    rw [h.2 a]
    rfl
  have hmap : ∀ {p k}, x.ledger.map p = some k →
      (x.vm.pte p.1 p.2).present = true ∧ (x.vm.pte p.1 p.2).frame = k := by
    intro p k hk
    have hk : pagedirGetPage x.vm p.1 p.2 = some k := hk
    rw [pagedirGetPage] at hk
    split at hk
    · exact ⟨‹_›, Option.some.inj hk⟩
    · cases hk
  constructor
  case map_used =>
    intro p k hk
    obtain ⟨hp, rfl⟩ := hmap hk
    exact (hf.frame _ _ hp).1
  case map_inj =>
    intro p q k hp hq
    obtain ⟨hp, hpk⟩ := hmap hp
    obtain ⟨hq, hqk⟩ := hmap hq
    obtain ⟨h₁, h₂⟩ := hf.frame_inj hp hq (hpk.trans hqk.symm)
    exact Prod.ext h₁ h₂
  case nodup => exact hf.nodup
  case mem =>
    intro k hk
    obtain ⟨fte, hmem, rfl⟩ := List.mem_map.mp hk
    obtain ⟨page, -, hp, hframe⟩ := hf.table fte hmem
    refine Or.inl ⟨(fte.owner, page), ?_⟩
    show pagedirGetPage x.vm fte.owner page = some fte.frame
    rw [pagedirGetPage, if_pos hp, hframe]
  all_goals simp [hrole, Role.owned]

theorem ledger_ok (h : machine.Reaches (fun x m => victimInstalled x m = true) x) :
    x.ledger.Ok := by
  refine System.Reaches.invariant (fun _ => ledger_start) ?_ h
  intro x m y hok hvictim hn
  rcases FrameStep.of_next hok hvictim hn with heq | hstep
  · rw [heq]
    exact hok
  · exact hok.step hstep

end

/-- Frame exclusivity: as long as every victim is installed when it is taken
    off the frame table, different pages are mapped to different frames. -/
theorem frame_mapped_once {x : Machine}
    (h : machine.Reaches (fun x m => victimInstalled x m = true) x) {pid q : Pid} {page r : PageNo}
    (hp : (x.vm.pte pid page).present = true) (hq : (x.vm.pte q r).present = true)
    (hne : (pid, page) ≠ (q, r)) : (x.vm.pte pid page).frame ≠ (x.vm.pte q r).frame := by
  have hmap : ∀ {q r}, (x.vm.pte q r).present = true →
      x.ledger.map (q, r) = some (x.vm.pte q r).frame := by
    intro q r hqr
    show pagedirGetPage x.vm q r = _
    rw [pagedirGetPage, if_pos hqr]
  intro hf
  exact hne ((ledger_ok h).map_inj (hmap hp) (hf ▸ hmap hq))

/-! ## Two processes and two frames -/

/-- A machine with two user frames and two swap slots. -/
def twoFrames : State := { oneFrame 2 with userPool := [false, false] }

/-- Two processes are started and get their first stack page. -/
def startTwo : List Step :=
  [.spawn 0 0, .setupStack 0 granted, .spawn 1 0, .setupStack 1 granted]

def twoStacks : State := (system.run (fun _ _ => True) twoFrames startTwo).get (by decide)

theorem twoStacks_start : machine.start ⟨twoStacks, fun _ => .user⟩ := by
  have hinit : system.start twoFrames := { initial_oneFrame 2 with userPool := by simp [twoFrames] }
  have hrun : system.run (fun _ _ => True) twoFrames startTwo = some twoStacks :=
    (Option.some_get _).symm
  exact ⟨System.Reaches.run (.start hinit) hrun, fun _ => rfl⟩

/-- `n` statements of the handler of `pid`, with the given entry of the frame
    table as the victim. -/
def statements (n : Nat) (pid : Pid) (victim : Nat) : List Move :=
  List.replicate n (.run pid { granted with victim := some victim })

/-- A process grows its stack with the frame of its own first page. -/
theorem frame_mapped_once_grown :
    ∃ x, machine.Reaches (fun x m => victimInstalled x m = true) x ∧
      (x.vm.pte 0 0xBFFFE).present = true ∧ (x.vm.pte 1 0xBFFFF).present = true ∧
      (x.vm.pte 0 0xBFFFE).frame ≠ (x.vm.pte 1 0xBFFFF).frame := by
  obtain ⟨x, hreach, hp⟩ := System.reaches_of_run (fun x m => victimInstalled x m = true)
    twoStacks_start
    (l := .fault 0 ⟨0xBFFFE000, 0xBFFFE000, true, true⟩ true :: statements 17 0 0)
    (p := fun x => (x.vm.pte 0 0xBFFFE).present && (x.vm.pte 1 0xBFFFF).present) (by decide)
  simp only [Bool.and_eq_true] at hp
  exact ⟨x, hreach, hp.1, hp.2, frame_mapped_once hreach hp.1 hp.2 (by decide)⟩

/-- A process that grows its stack is preempted between `fte->aux = spte` and
    `install_page`; another one evicts the frame, grows its own stack with it,
    and then the first one installs it as well. -/
theorem frame_mapped_twice :
    ∃ x, machine.Reachable x ∧
      (x.vm.pte 0 0xBFFFE).present = true ∧ (x.vm.pte 1 0xBFFFE).present = true ∧
      (x.vm.pte 0 0xBFFFE).frame = (x.vm.pte 1 0xBFFFE).frame := by
  obtain ⟨x, hreach, hp⟩ := System.reachable_of_run twoStacks_start
    (l := .fault 0 ⟨0xBFFFE000, 0xBFFFE000, true, true⟩ true :: statements 15 0 0 ++
      .fault 1 ⟨0xBFFFE000, 0xBFFFE000, true, true⟩ true :: statements 17 1 1 ++
      statements 1 0 0)
    (p := fun x => (x.vm.pte 0 0xBFFFE).present && (x.vm.pte 1 0xBFFFE).present &&
      (x.vm.pte 0 0xBFFFE).frame == (x.vm.pte 1 0xBFFFE).frame) (by decide)
  simp only [Bool.and_eq_true, beq_iff_eq] at hp
  exact ⟨x, hreach, hp.1.1, hp.1.2, hp.2⟩

end Pintos.Vm
