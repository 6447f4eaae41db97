/-
  Pintos.Userprog.ExitWait

  Agreement between `exit` and `process_wait`: whatever the interleaving, the
  first `process_wait` on a child returns the status the child handed to
  `exit`, later ones return -1 at once, and the parent never sleeps on
  `exit_wait` after the child has finished signalling.

  A step concerns one child: `LocalStep` says what it can do to the child's
  record and to the parent's place on it, and every step of the family is one
  (`FamilyOk.localStep`).

  The invariant is local to a child as well.  `PcOk` says what the child's own
  next statement implies about its record, `ViewOk` what the parent's next
  statement on that record implies; a step of the child keeps the second as long
  as it forgets no status and cancels no pending wake-up (`ViewOk.child`).
-/

import Pintos.Userprog.ExitState

namespace Pintos.Userprog

open Pintos.Base Function

/-- Where the parent is as far as child `c` is concerned. -/
def Family.view (s : Family) (c : Nat) : ParentPc :=
  if s.pc.child? = some c then s.pc else .user

/-- What the child's next statement says about its record. -/
def PcOk (ch : Child) : Prop :=
  match ch.pc with
  | .load | .setLoadSuccess _ => ch.status = none ∧ ch.es.loadSuccess = false
  | .upLoadWait ok => ch.status = none ∧ ch.es.loadSuccess = ok
  | .user => ch.status = none ∧ ch.es.loadSuccess = true
  | .killSetStatus => ch.status = some (-1)
  | .killUp => ch.status = some (-1) ∧ ch.es.exitStatus = -1
  | .exitSetStatus st => ch.status = some st
  | .exitSetExited => ch.status = some ch.es.exitStatus
  | .exitTestWaiting | .exitUp => ch.es.exited = true
  | .gone => ch.es.exited = true ∨ ch.es.loadSuccess = false

/-- A wake-up is still to come: if the semaphore is at 0, the child has its
    `sema_up` ahead of it. -/
def Awake (ch : Child) : Prop :=
  ch.es.exitWait.value = 0 →
    ch.pc ≠ .gone ∧ (ch.es.exited = true → ch.pc = .exitTestWaiting ∨ ch.pc = .exitUp)

/-- What the parent's next statement on the record says about it.  `onList`
    says that the record is on `children_exit_state`. -/
def ViewOk (view : ParentPc) (onList : Prop) (ch : Child) : Prop :=
  match view with
  | .user => (onList → ch.started = true) ∧ (ch.started = true → ¬ onList → ch.results ≠ [])
  | .execSetTid _ | .execPush _ | .execFree _ => ch.started = false ∧ ¬ onList
  | .execDown _ | .execTestLoad _ | .execRemove _ => ch.started = false ∧ onList
  | .waitRemove _ => ch.started = true
  | .waitSetWaiting _ => ch.started = true ∧ ¬ onList
  | .waitTestExited _ => ch.started = true ∧ ¬ onList ∧ ch.es.waiting = true
  | .waitDown _ => ch.started = true ∧ ¬ onList ∧ ch.es.waiting = true ∧ Awake ch
  | .waitReadStatus _ => ch.started = true ∧ ¬ onList ∧ ch.status = some ch.es.exitStatus
  | .waitFree _ r => ch.started = true ∧ ¬ onList ∧ ch.status = some r

/-- The invariant of one child. -/
structure ChildOk (view : ParentPc) (onList : Prop) (c : Nat) (ch : Child) : Prop where
  pcOk : PcOk ch
  viewOk : ViewOk view onList ch
  /-- The record is tagged with the tid before anyone can look it up. -/
  tid : view ≠ .execSetTid c → ch.es.tid = c
  /-- A signalled record carries the status handed to `exit`. -/
  signalled : ch.es.exited = true ∨ 0 < ch.es.exitWait.value → ch.status = some ch.es.exitStatus
  loaded : ch.started = true → ch.es.loadSuccess = true
  done : ch.results ≠ [] → ch.started = true ∧ ¬ onList ∧ view = .user
  agree : ∀ r rest, ch.results = r :: rest → ch.status = some r ∧ ∀ r' ∈ rest, r' = -1

/-- The invariant of the family. -/
structure FamilyOk (s : Family) : Prop where
  nodup : s.childrenExitState.Nodup
  known : ∀ c ∈ s.childrenExitState, s.children c ≠ none
  child : ∀ c ch, s.children c = some ch → ChildOk (s.view c) (c ∈ s.childrenExitState) c ch

/-! ## Steps of a child -/

/-- What step `a`, of child `c`, does to it. -/
inductive ChildStep (a : FamilyStep) (c : Nat) (ch : Child) : Child → Prop
  | loadReturns (hpc : ch.pc = .load) (ok : Bool) :
      ChildStep a c ch { ch with pc := .setLoadSuccess ok }
  /-- The child calls `exit`, faults in `load`, or is killed. -/
  | enter (hpc : ch.pc = .load ∧ a = .loadFaults c ∨
        ch.pc = .user ∧ ((∃ st, a = .exit c st) ∨ a = .kill c)) {pc : ChildPc} {st : Int}
      (hpc' : pc = .exitSetStatus st ∨ pc = .killSetStatus ∧ st = -1) :
      ChildStep a c ch { ch with pc := pc, status := some st }
  | setLoadSuccess {ok : Bool} (hpc : ch.pc = .setLoadSuccess ok) :
      ChildStep a c ch { ch with pc := .upLoadWait ok, es := { ch.es with loadSuccess := ok } }
  | upLoadWait {ok : Bool} (hpc : ch.pc = .upLoadWait ok) (w : Bool) :
      ChildStep a c ch { ch with pc := if ok then .user else .gone,
                                 es := { ch.es with loadWait := ⟨ch.es.loadWait.value + 1, w⟩ } }
  | killSetStatus (hpc : ch.pc = .killSetStatus) :
      ChildStep a c ch { ch with pc := .killUp, es := { ch.es with exitStatus := -1 } }
  | killUp (hpc : ch.pc = .killUp) (w : Bool) :
      ChildStep a c ch { ch with pc := .exitSetStatus (-1),
                                 es := { ch.es with exitWait := ⟨ch.es.exitWait.value + 1, w⟩ } }
  | exitSetStatus {st : Int} (hpc : ch.pc = .exitSetStatus st) :
      ChildStep a c ch { ch with pc := .exitSetExited, es := { ch.es with exitStatus := st } }
  | exitSetExited (hpc : ch.pc = .exitSetExited) :
      ChildStep a c ch { ch with pc := .exitTestWaiting, es := { ch.es with exited := true } }
  | exitTestWaiting (hpc : ch.pc = .exitTestWaiting) :
      ChildStep a c ch { ch with pc := if ch.es.waiting then .exitUp else .gone }
  | exitUp (hpc : ch.pc = .exitUp) (w : Bool) :
      ChildStep a c ch { ch with pc := .gone,
                                 es := { ch.es with exitWait := ⟨ch.es.exitWait.value + 1, w⟩ } }

section

variable {a : FamilyStep} {v v' : ParentPc} {l l' : Prop} {c : Nat} {ch ch' : Child}

/-- A step of the child keeps the parent's side of the invariant if it changes
    none of the parent's fields, forgets no status, and keeps a wake-up coming
    for a parent that has announced itself. -/
theorem ViewOk.child (h : ViewOk v l ch)
    (hstarted : ch'.started = ch.started) (hresults : ch'.results = ch.results)
    (hwaiting : ch'.es.waiting = ch.es.waiting)
    (hstatus : ∀ r, ch.status = some r → ch'.status = some r)
    (hread : ch.status = some ch.es.exitStatus → ch'.status = some ch'.es.exitStatus)
    (hawake : ch.started = true → ch.es.waiting = true → Awake ch → Awake ch') :
    ViewOk v l ch' := by
  cases v <;> simp only [ViewOk, hstarted, hresults, hwaiting] at h ⊢
  case waitDown c => exact ⟨h.1, h.2.1, h.2.2.1, hawake h.1 h.2.2.1 h.2.2.2⟩
  case waitReadStatus c => exact ⟨h.1, h.2.1, hread h.2.2⟩
  case waitFree c r => exact ⟨h.1, h.2.1, hstatus r h.2.2⟩
  all_goals exact h

/-- Before the child sets `exited`, moving on cancels no wake-up. -/
theorem Awake.early (ha : Awake ch)
    (hpc : ch.pc ≠ .exitTestWaiting ∧ ch.pc ≠ .exitUp) (hpc' : ch'.pc ≠ .gone)
    (hexited : ch'.es.exited = ch.es.exited)
    (hvalue : ch'.es.exitWait.value = ch.es.exitWait.value) : Awake ch' := by
  intro hv
  refine ⟨hpc', fun he => ?_⟩
  rcases (ha (hvalue ▸ hv)).2 (hexited ▸ he) with h | h
  · exact absurd h hpc.1
  · exact absurd h hpc.2

/-- A semaphore above 0 needs no further wake-up. -/
theorem Awake.of_pos (h : 0 < ch.es.exitWait.value) : Awake ch :=
  fun hv => absurd hv (Nat.pos_iff_ne_zero.mp h)

theorem ChildOk.fresh (hl : ¬ l) : ChildOk (.execSetTid c) l c Child.fresh := by
  constructor <;> simp [PcOk, ViewOk, Child.fresh, ExitState.fresh, hl]

theorem ChildOk.childStep (h : ChildOk v l c ch) (hs : ChildStep a c ch ch') : ChildOk v l c ch' := by
  have hp := h.pcOk
  cases hs with
  | loadReturns hpc ok =>
    simp only [PcOk, hpc] at hp
    exact { h with
      pcOk := hp
      viewOk := h.viewOk.child rfl rfl rfl (fun _ hr => hr) id
        fun _ _ ha => ha.early (by simp [hpc]) (by simp) rfl rfl }
  | enter hpc hpc' =>
    -- no status has been recorded yet
    have hnone : ch.status = none := by rcases hpc with ⟨hpc, -⟩ | ⟨hpc, -⟩ <;> simp_all [PcOk]
    exact { h with
      pcOk := by rcases hpc' with rfl | ⟨rfl, rfl⟩ <;> rfl
      viewOk := h.viewOk.child rfl rfl rfl (by simp [hnone]) (by simp [hnone]) fun _ _ ha =>
        ha.early (by rcases hpc with ⟨hpc, -⟩ | ⟨hpc, -⟩ <;> simp [hpc])
          (by rcases hpc' with rfl | ⟨rfl, -⟩ <;> simp) rfl rfl
      signalled := fun hs => by simpa [hnone] using h.signalled hs
      agree := fun r rest hr => by simpa [hnone] using (h.agree r rest hr).1 }
  | setLoadSuccess hpc =>
    simp only [PcOk, hpc] at hp
    exact { h with
      pcOk := ⟨hp.1, rfl⟩
      viewOk := h.viewOk.child rfl rfl rfl (fun _ hr => hr) id
        fun _ _ ha => ha.early (by simp [hpc]) (by simp) rfl rfl
      loaded := fun hs => absurd (h.loaded hs) (by simp [hp.2]) }
  | @upLoadWait ok hpc w =>
    simp only [PcOk, hpc] at hp
    refine { h with pcOk := ?_, viewOk := ?_ }
    · cases ok <;> simp [PcOk, hp]
    · refine h.viewOk.child rfl rfl rfl (fun _ hr => hr) id fun hs _ ha => ?_
      -- The parent waits only for a child whose load succeeded.
      have hok : ok = true := hp.2.symm.trans (h.loaded hs)
      exact ha.early (by simp [hpc]) (by simp [hok]) rfl rfl
  | killSetStatus hpc =>
    simp only [PcOk, hpc] at hp
    exact { h with
      pcOk := ⟨hp, rfl⟩
      viewOk := h.viewOk.child rfl rfl rfl (fun _ hr => hr) (fun _ => hp)
        fun _ _ ha => ha.early (by simp [hpc]) (by simp) rfl rfl
      signalled := fun _ => hp }
  | killUp hpc w =>
    simp only [PcOk, hpc] at hp
    exact { h with
      pcOk := hp.1
      viewOk := h.viewOk.child rfl rfl rfl (fun _ hr => hr) id
        fun _ _ _ => Awake.of_pos (Nat.succ_pos _)
      signalled := fun _ => hp.1.trans (congrArg some hp.2.symm) }
  | exitSetStatus hpc =>
    simp only [PcOk, hpc] at hp
    exact { h with
      pcOk := hp
      viewOk := h.viewOk.child rfl rfl rfl (fun _ hr => hr) (fun _ => hp)
        fun _ _ ha => ha.early (by simp [hpc]) (by simp) rfl rfl
      signalled := fun _ => hp }
  | exitSetExited hpc =>
    simp only [PcOk, hpc] at hp
    exact { h with
      pcOk := rfl
      viewOk := h.viewOk.child rfl rfl rfl (fun _ hr => hr) id
        fun _ _ _ _ => ⟨by simp, fun _ => Or.inl rfl⟩
      signalled := fun _ => hp }
  | exitTestWaiting hpc =>
    simp only [PcOk, hpc] at hp
    refine { h with pcOk := ?_, viewOk := ?_ }
    · cases ch.es.waiting <;> simp [PcOk, hp]
    · -- A parent that sleeps has set `waiting`, so the child goes on to `sema_up`.
      refine h.viewOk.child rfl rfl rfl (fun _ hr => hr) id fun _ hw _ _ => ?_
      simp [hw]
  | exitUp hpc w =>
    simp only [PcOk, hpc] at hp
    exact { h with
      pcOk := Or.inl hp
      viewOk := h.viewOk.child rfl rfl rfl (fun _ hr => hr) id
        fun _ _ _ => Awake.of_pos (Nat.succ_pos _)
      signalled := fun _ => h.signalled (Or.inl hp) }

/-! ## Steps of the parent, seen from the child whose record it works on -/

/-- What a step of the parent does: to its place on the record, to the list (`l`
    says that the record is on it), and to the record. -/
inductive ParentStep (c : Nat) (l : Prop) (ch : Child) : ParentPc → ParentPc → Prop → Child → Prop
  | execSetTid : ParentStep c l ch (.execSetTid c) (.execPush c) l
      { ch with es := { ch.es with tid := c } }
  | execPush {l' : Prop} (hl : l') : ParentStep c l ch (.execPush c) (.execDown c) l' ch
  | execSleep (hv : ch.es.loadWait.value = 0) (w : Bool) :
      ParentStep c l ch (.execDown c) (.execDown c) l
        { ch with es := { ch.es with loadWait := ⟨0, w⟩ } }
  | execDown (hv : ch.es.loadWait.value ≠ 0) (sema : Sema) :
      ParentStep c l ch (.execDown c) (.execTestLoad c) l
        { ch with es := { ch.es with loadWait := sema } }
  | execStarted (hload : ch.es.loadSuccess = true) :
      ParentStep c l ch (.execTestLoad c) .user l { ch with started := true }
  | execFailed (hload : ch.es.loadSuccess = false) :
      ParentStep c l ch (.execTestLoad c) (.execRemove c) l ch
  | execRemove {l' : Prop} (hl : ¬ l') : ParentStep c l ch (.execRemove c) (.execFree c) l' ch
  | execFree : ParentStep c l ch (.execFree c) .user l { ch with es := { ch.es with freed := true } }
  | waitFind (hl : l) : ParentStep c l ch .user (.waitRemove c) l ch
  | waitRemove {l' : Prop} (hl : ¬ l') : ParentStep c l ch (.waitRemove c) (.waitSetWaiting c) l' ch
  | waitSetWaiting : ParentStep c l ch (.waitSetWaiting c) (.waitTestExited c) l
      { ch with es := { ch.es with waiting := true } }
  | waitTestExited : ParentStep c l ch (.waitTestExited c)
      (if ch.es.exited then .waitReadStatus c else .waitDown c) l ch
  | waitSleep (hv : ch.es.exitWait.value = 0) (w : Bool) :
      ParentStep c l ch (.waitDown c) (.waitDown c) l
        { ch with es := { ch.es with exitWait := ⟨0, w⟩ } }
  | waitDown (hv : ch.es.exitWait.value ≠ 0) (w : Bool) :
      ParentStep c l ch (.waitDown c) (.waitReadStatus c) l
        { ch with es := { ch.es with exitWait := ⟨ch.es.exitWait.value - 1, w⟩ } }
  | waitReadStatus : ParentStep c l ch (.waitReadStatus c) (.waitFree c ch.es.exitStatus) l ch
  | waitFree (r : Int) : ParentStep c l ch (.waitFree c r) .user l
      { ch with es := { ch.es with freed := true }, results := ch.results ++ [r] }
  /-- A `process_wait` that finds no record. -/
  | waitMissed (hl : ¬ l) (hs : ch.started = true) :
      ParentStep c l ch .user .user l { ch with results := ch.results ++ [-1] }

theorem ChildOk.results_nil (h : ChildOk v l c ch) (hv : v ≠ .user) : ch.results = [] := by
  by_contra hne
  exact hv (h.done hne).2.2

/-- The parent moves from one statement on the record to another and changes
    no field of it. -/
theorem ChildOk.move (h : ChildOk v l c ch) (hv : v ≠ .user) (htid : v ≠ .execSetTid c)
    (hview : ViewOk v' l' ch) : ChildOk v' l' c ch :=
  { h with
    viewOk := hview
    tid := fun _ => h.tid htid
    done := fun hne => absurd (h.results_nil hv) hne }

/-- The parent reads `exited` after it has set `waiting`: if the flag is still
    down, the child will see `waiting` when it tests it. -/
theorem ChildOk.waitTestExited (h : ChildOk (.waitTestExited c) l c ch) :
    ChildOk (if ch.es.exited then .waitReadStatus c else .waitDown c) l c ch := by
  obtain ⟨hs, hl, hw⟩ := h.viewOk
  cases he : ch.es.exited with
  | true => exact h.move (by simp) (by simp) ⟨hs, hl, h.signalled (Or.inl he)⟩
  | false =>
    refine h.move (by simp) (by simp) ⟨hs, hl, hw, fun _ => ⟨fun hgone => ?_, by simp [he]⟩⟩
    have hp := h.pcOk
    simp [PcOk, hgone, he, h.loaded hs] at hp

/-- A `process_wait` that finds no record adds -1 behind results that are
    already there. -/
theorem ChildOk.waitMissed (h : ChildOk .user l c ch) (hl : ¬ l) (hs : ch.started = true) :
    ChildOk .user l c { ch with results := ch.results ++ [-1] } := by
  obtain ⟨r, rest, hres⟩ := List.exists_cons_of_ne_nil (h.viewOk.2 hs hl)
  obtain ⟨hr, hrest⟩ := h.agree r rest hres
  exact { h with
    viewOk := ⟨fun hl' => absurd hl' hl, fun _ _ => by simp⟩
    done := fun _ => ⟨hs, hl, rfl⟩
    agree := fun r' rest' he => by
      simp only [hres, List.cons_append, List.cons.injEq] at he
      obtain ⟨rfl, rfl⟩ := he
      refine ⟨hr, fun x hx => ?_⟩
      rcases List.mem_append.mp hx with hx | hx
      · exact hrest x hx
      · exact List.mem_singleton.mp hx }

theorem ChildOk.parentStep (h : ChildOk v l c ch) (hs : ParentStep c l ch v v' l' ch') :
    ChildOk v' l' c ch' := by
  cases hs with
  | execSetTid =>
    exact { h with
      tid := fun _ => rfl
      done := fun hne => absurd (h.results_nil (by simp)) hne }
  | execPush hl => exact h.move (by simp) (by simp) ⟨h.viewOk.1, hl⟩
  | execSleep w => exact { h with }
  | execDown hv sema =>
    have hsleep : ChildOk (.execDown c) l c { ch with es := { ch.es with loadWait := sema } } :=
      { h with }
    exact hsleep.move (by simp) (by simp) h.viewOk
  | execStarted hload =>
    exact { h with
      viewOk := ⟨fun _ => rfl, fun _ hl => absurd h.viewOk.2 hl⟩
      tid := fun _ => h.tid (by simp)
      loaded := fun _ => hload
      done := fun hne => absurd (h.results_nil (by simp)) hne }
  | execFailed hload => exact h.move (by simp) (by simp) h.viewOk
  | execRemove hl => exact h.move (by simp) (by simp) ⟨h.viewOk.1, hl⟩
  | execFree =>
    exact { h with
      viewOk := ⟨fun hl => absurd hl h.viewOk.2, fun hs => by simp [h.viewOk.1] at hs⟩
      tid := fun _ => h.tid (by simp)
      done := fun hne => absurd (h.results_nil (by simp)) hne }
  | waitFind hl =>
    exact { h with
      viewOk := h.viewOk.1 hl
      tid := fun _ => h.tid (by simp)
      done := fun hne => absurd hl (h.done hne).2.1 }
  | waitRemove hl => exact h.move (by simp) (by simp) ⟨h.viewOk, hl⟩
  | waitSetWaiting =>
    exact { h with
      viewOk := ⟨h.viewOk.1, h.viewOk.2, rfl⟩
      tid := fun _ => h.tid (by simp)
      done := fun hne => absurd (h.results_nil (by simp)) hne }
  | waitTestExited => exact h.waitTestExited
  | waitSleep hv w =>
    obtain ⟨hs, hl, hw, ha⟩ := h.viewOk
    exact { h with
      viewOk := ⟨hs, hl, hw, fun _ => ha hv⟩
      signalled := fun he => h.signalled (by simpa [hv] using he) }
  | waitDown hv w =>
    obtain ⟨hs, hl, -, -⟩ := h.viewOk
    have hstatus := h.signalled (Or.inr (Nat.pos_of_ne_zero hv))
    exact { h with
      viewOk := ⟨hs, hl, hstatus⟩
      tid := fun _ => h.tid (by simp)
      signalled := fun _ => hstatus
      done := fun hne => absurd (h.results_nil (by simp)) hne }
  | waitReadStatus => exact h.move (by simp) (by simp) h.viewOk
  | waitFree r =>
    -- The first `process_wait` returns: its value becomes the first result.
    obtain ⟨hs, hl, hr⟩ := h.viewOk
    have hnil := h.results_nil (by simp)
    exact { h with
      viewOk := ⟨fun hl' => absurd hl' hl, fun _ _ => by simp⟩
      tid := fun _ => h.tid (by simp)
      done := fun _ => ⟨hs, hl, rfl⟩
      agree := fun r' rest he => by
        simp only [hnil, List.nil_append, List.cons.injEq] at he
        simp [← he.1, ← he.2, hr] }
  | waitMissed hl hs => exact h.waitMissed hl hs

end

/-! ## Steps of the family -/

namespace Family

theorem view_congr {s s' : Family} (h : s'.pc = s.pc) (c : Nat) : s'.view c = s.view c := by
  simp only [view, h]

theorem view_self {s : Family} {c : Nat} (h : s.pc.child? = some c) : s.view c = s.pc := by
  simp only [view, h, if_true]

theorem view_user {s : Family} (h : s.pc = .user) (c : Nat) : s.view c = .user := by
  simp [view, h, ParentPc.child?]

theorem view_other {s : Family} {c c' : Nat} (h : s.pc.child? = some c) (hne : c' ≠ c) :
    s.view c' = .user := by
  simp [view, h, Ne.symm hne]

end Family

open Family

/-- The step concerns child `c` only: the others, the parent's place on them and
    their records' membership of the list are as before. -/
structure Change (s s' : Family) (c : Nat) (ch' : Child) : Prop where
  children : s'.children = update s.children c (some ch')
  view : ∀ c', c' ≠ c → s'.view c' = s.view c'
  nodup : s'.childrenExitState.Nodup
  mem : ∀ c', c' ≠ c → (c' ∈ s'.childrenExitState ↔ c' ∈ s.childrenExitState)

/-- What a step of the family can do. -/
inductive LocalStep (a : FamilyStep) (s s' : Family) : Prop
  | idle (h : s' = s)
  | exec (c : Nat) (hnone : s.children c = none) (h : Change s s' c .fresh)
      (hview : s'.view c = .execSetTid c) (hlist : s'.childrenExitState = s.childrenExitState)
  | child (c : Nat) (ch ch' : Child) (hc : s.children c = some ch) (h : Change s s' c ch')
      (hview : s'.view c = s.view c) (hlist : s'.childrenExitState = s.childrenExitState)
      (hstep : ChildStep a c ch ch')
  | parent (c : Nat) (ch ch' : Child) (hc : s.children c = some ch) (h : Change s s' c ch')
      (hstep : ParentStep c (c ∈ s.childrenExitState) ch (s.view c) (s'.view c)
        (c ∈ s'.childrenExitState) ch')
      (hpc : s.pc = .user ∨ a = .parent ∧ s.view c = s.pc)

section

variable {s s' : Family} {a : FamilyStep} {c : Nat} {ch ch' : Child}

/-- What holds of every child, its place and its record is to be shown of `c`
    only. -/
theorem Change.forall {P : ParentPc → Prop → Nat → Child → Prop} (hch : Change s s' c ch')
    (h : ∀ k ck, s.children k = some ck → P (s.view k) (k ∈ s.childrenExitState) k ck)
    (hc : P (s'.view c) (c ∈ s'.childrenExitState) c ch') :
    ∀ k ck, s'.children k = some ck → P (s'.view k) (k ∈ s'.childrenExitState) k ck := by
  intro k ck hk
  rw [hch.children] at hk
  by_cases hkc : k = c
  · subst hkc
    rw [update_self] at hk
    exact Option.some.inj hk ▸ hc
  · rw [update_of_ne hkc] at hk
    rw [hch.view k hkc, propext (hch.mem k hkc)]
    exact h k ck hk

theorem FamilyOk.change (h : FamilyOk s) (hch : Change s s' c ch')
    (hok : ChildOk (s'.view c) (c ∈ s'.childrenExitState) c ch') : FamilyOk s' where
  nodup := hch.nodup
  known c' hc' := by
    by_cases hcc : c' = c
    · simp [hch.children, hcc]
    · rw [hch.children, update_of_ne hcc]
      exact h.known c' ((hch.mem c' hcc).mp hc')
  child := hch.forall h.child hok

/-- A step keeps the invariant of the child it concerns. -/
theorem FamilyOk.step (h : FamilyOk s) (hs : LocalStep a s s') : FamilyOk s' := by
  cases hs with
  | idle heq => exact heq ▸ h
  | exec c hnone hch hview hlist =>
    refine h.change hch ?_
    rw [hview, hlist]
    exact ChildOk.fresh fun hmem => h.known c hmem hnone
  | child c ch ch' hc hch hview hlist hstep =>
    refine h.change hch ?_
    rw [hview, hlist]
    exact (h.child c ch hc).childStep hstep
  | parent c ch ch' hc hch hstep _ => exact h.change hch ((h.child c ch hc).parentStep hstep)

/-- A step of child `c`. -/
theorem FamilyOk.setChild (h : FamilyOk s) (hc : s.children c = some ch)
    (hstep : ChildStep a c ch ch')
    (hch : s'.children = update s.children c (some ch')) (hpc : s'.pc = s.pc)
    (hlist : s'.childrenExitState = s.childrenExitState) : LocalStep a s s' :=
  .child c ch ch' hc ⟨hch, fun c' _ => view_congr hpc c', hlist ▸ h.nodup, fun _ _ => by rw [hlist]⟩
    (view_congr hpc c) hlist hstep

/-- The parent goes from one statement on child `c` to another. -/
theorem view_of_child? (hpc : s.pc.child? = some c) (hpc' : s'.pc.child? = some c ∨ s'.pc = .user) :
    s'.view c = s'.pc ∧ ∀ c', c' ≠ c → s'.view c' = s.view c' := by
  rcases hpc' with hpc' | hpc'
  · exact ⟨view_self hpc', fun c' hne => by rw [view_other hpc hne, view_other hpc' hne]⟩
  · exact ⟨by rw [view_user hpc', hpc'], fun c' hne => by rw [view_other hpc hne, view_user hpc']⟩

/-- A statement of the parent on child `c` that leaves the list alone. -/
theorem FamilyOk.setParent (h : FamilyOk s) (hc : s.children c = some ch)
    (hpc : s.pc.child? = some c) (hpc' : s'.pc.child? = some c ∨ s'.pc = .user)
    (hch : s'.children = update s.children c (some ch'))
    (hlist : s'.childrenExitState = s.childrenExitState)
    (hstep : ParentStep c (c ∈ s.childrenExitState) ch s.pc s'.pc (c ∈ s.childrenExitState) ch') :
    LocalStep .parent s s' := by
  obtain ⟨hself, hview⟩ := view_of_child? hpc hpc'
  refine .parent c ch ch' hc ⟨hch, hview, hlist ▸ h.nodup, fun _ _ => by rw [hlist]⟩ ?_
    (Or.inr ⟨rfl, view_self hpc⟩)
  rw [view_self hpc, hself, hlist]
  exact hstep

/-- Unlinking the record of the child the parent works on. -/
theorem FamilyOk.unlink (h : FamilyOk s) (hc : s.children c = some ch)
    (hpc : s.pc.child? = some c) (hpc' : s'.pc.child? = some c) (hch : s'.children = s.children)
    (hlist : s'.childrenExitState = s.childrenExitState.erase c)
    (hstep : ∀ l : Prop, ¬ l → ParentStep c (c ∈ s.childrenExitState) ch s.pc s'.pc l ch) :
    LocalStep .parent s s' := by
  obtain ⟨hself, hview⟩ := view_of_child? hpc (Or.inl hpc')
  refine .parent c ch ch hc ⟨by rw [hch, ← hc, update_eq_self], hview, hlist ▸ h.nodup.erase c,
    fun c' hne => by rw [hlist, List.mem_erase_of_ne hne]⟩ ?_ (Or.inr ⟨rfl, view_self hpc⟩)
  rw [view_self hpc, hself]
  exact hstep _ (by rw [hlist]; exact h.nodup.not_mem_erase)

theorem FamilyOk.childNext (h : FamilyOk s) (hc : s.children c = some ch)
    (hn : s.childNext c ch = some s') : LocalStep a s s' := by
  cases hpc : ch.pc <;>
    simp only [Family.childNext, hpc, Option.some.injEq, reduceCtorEq] at hn <;> subst hn
  case setLoadSuccess ok => exact h.setChild hc (.setLoadSuccess hpc) rfl rfl rfl
  case upLoadWait ok => exact h.setChild hc (.upLoadWait hpc _) rfl rfl rfl
  case killSetStatus => exact h.setChild hc (.killSetStatus hpc) rfl rfl rfl
  case killUp => exact h.setChild hc (.killUp hpc _) rfl rfl rfl
  case exitSetStatus st => exact h.setChild hc (.exitSetStatus hpc) rfl rfl rfl
  case exitSetExited => exact h.setChild hc (.exitSetExited hpc) rfl rfl rfl
  case exitTestWaiting => exact h.setChild hc (.exitTestWaiting hpc) rfl rfl rfl
  case exitUp => exact h.setChild hc (.exitUp hpc _) rfl rfl rfl

theorem FamilyOk.parentNext (h : FamilyOk s) (hc : s.children c = some ch)
    (hpc : s.pc.child? = some c) (hn : s.parentNext c ch = some s') : LocalStep .parent s s' := by
  have hok := h.child c ch hc
  rw [view_self hpc] at hok
  have hself : s.children = update s.children c (some ch) := by
    rw [← hc, update_eq_self]
  have hchild := hpc
  cases hp : s.pc <;> rw [hp] at hpc hok <;>
    simp only [ParentPc.child?, Option.some.injEq, reduceCtorEq] at hpc <;> subst hpc <;>
    simp only [Family.parentNext, hp] at hn
  case execSetTid c =>
    cases hn
    exact h.setParent hc hchild (Or.inl rfl) rfl rfl (hp ▸ .execSetTid)
  case execPush c =>
    cases hn
    have hnot : c ∉ s.childrenExitState := hok.viewOk.2
    refine .parent c ch ch hc ⟨hself, (view_of_child? hchild (Or.inl rfl)).2, ?_,
      fun c' hne => by simp [hne]⟩ ?_ (Or.inr ⟨rfl, view_self hchild⟩)
    · exact List.nodup_append.mpr ⟨h.nodup, by simp, fun a ha b hb => by
        rw [List.mem_singleton.mp hb]
        exact fun hab => hnot (hab ▸ ha)⟩
    · rw [view_self hchild, view_self rfl, hp]
      exact .execPush (by simp)
  case execDown c =>
    split at hn
    · rename_i hv
      cases hn
      exact h.setParent hc hchild (Or.inl hchild) rfl rfl (by
        rw [Family.setChild, hp]
        exact .execSleep hv _)
    · rename_i hv
      cases hn
      exact h.setParent hc hchild (Or.inl rfl) rfl rfl (hp ▸ .execDown hv _)
  case execTestLoad c =>
    split at hn
    · rename_i hload
      cases hn
      exact h.setParent hc hchild (Or.inr rfl) rfl rfl (hp ▸ .execStarted hload)
    · rename_i hload
      cases hn
      exact h.setParent hc hchild (Or.inl rfl) hself rfl (hp ▸ .execFailed (by simpa using hload))
  case execRemove c =>
    cases hn
    exact h.unlink hc hchild rfl rfl rfl fun _ hl => hp ▸ .execRemove hl
  case execFree c =>
    cases hn
    exact h.setParent hc hchild (Or.inr rfl) rfl rfl (hp ▸ .execFree)
  case waitRemove c =>
    cases hn
    exact h.unlink hc hchild rfl rfl rfl fun _ hl => hp ▸ .waitRemove hl
  case waitSetWaiting c =>
    cases hn
    exact h.setParent hc hchild (Or.inl rfl) rfl rfl (hp ▸ .waitSetWaiting)
  case waitTestExited c =>
    cases hn
    refine h.setParent hc hchild (Or.inl ?_) hself rfl (hp ▸ .waitTestExited)
    cases ch.es.exited <;> rfl
  case waitDown c =>
    split at hn
    · rename_i hv
      cases hn
      exact h.setParent hc hchild (Or.inl hchild) rfl rfl (by
        rw [Family.setChild, hp]
        exact .waitSleep hv _)
    · rename_i hv
      cases hn
      exact h.setParent hc hchild (Or.inl rfl) rfl rfl (hp ▸ .waitDown hv _)
  case waitReadStatus c =>
    cases hn
    exact h.setParent hc hchild (Or.inl rfl) hself rfl (hp ▸ .waitReadStatus)
  case waitFree c r =>
    cases hn
    have hs : ch.started = true := hok.viewOk.1
    refine h.setParent hc hchild (Or.inr rfl) ?_ ?_ (by rw [hp]; exact .waitFree r)
    · simp [Family.returned, Family.setChild, hs]
    · simp [Family.returned, Family.setChild, hs]

end

/-- The record `process_wait (tid)` finds is the one of child `tid`. -/
theorem FamilyOk.findExitState {s : Family} (h : FamilyOk s) (hpc : s.pc = .user) {c k : Nat}
    (hf : s.findExitState c = some k) : k = c ∧ k ∈ s.childrenExitState := by
  have hk : k ∈ s.childrenExitState := List.mem_of_find?_eq_some hf
  have htag := List.find?_some hf
  obtain ⟨ch, hch⟩ := Option.ne_none_iff_exists'.mp (h.known k hk)
  have htid := (h.child k ch hch).tid (by simp [view_user hpc])
  simp only [hch, Option.any_some, beq_iff_eq] at htag
  exact ⟨htid.symm.trans htag, hk⟩

/-- A child whose record is on the list is found by its tid. -/
theorem FamilyOk.not_mem_of_findExitState {s : Family} (h : FamilyOk s) (hpc : s.pc = .user)
    {c : Nat} {ch : Child} (hc : s.children c = some ch) (hf : s.findExitState c = none) :
    c ∉ s.childrenExitState := by
  intro hmem
  have htid := (h.child c ch hc).tid (by simp [view_user hpc])
  have := List.find?_eq_none.mp hf c hmem
  simp [hc, htid] at this

/-- Every step of the family is a local one. -/
theorem FamilyOk.localStep {s s' : Family} {a : FamilyStep} (h : FamilyOk s)
    (hn : s.next a = some s') : LocalStep a s s' := by
  cases a <;> simp only [Family.next] at hn
  case exec c =>
    split at hn
    · rename_i hcond
      cases hn
      exact .exec c hcond.2 ⟨rfl, fun c' hne => by rw [view_user hcond.1, view_other (c := c) rfl hne],
        h.nodup, fun _ _ => Iff.rfl⟩ (view_self rfl) rfl
    · cases hn
  case wait c =>
    split at hn
    · rename_i hpc
      split at hn
      · rename_i k hf
        cases hn
        obtain ⟨rfl, hk⟩ := h.findExitState hpc hf
        obtain ⟨ch, hch⟩ := Option.ne_none_iff_exists'.mp (h.known k hk)
        refine .parent k ch ch hch ⟨by rw [← hch, update_eq_self], fun c' hne => ?_, h.nodup,
          fun _ _ => Iff.rfl⟩ ?_ (Or.inl hpc)
        · rw [view_user hpc, view_other (c := k) rfl hne]
        · rw [view_user hpc, view_self rfl]
          exact .waitFind hk
      · rename_i hf
        cases hn
        unfold Family.returned
        split
        · rename_i ch hch
          split
          · rename_i hs
            refine .parent c ch _ hch ⟨rfl, fun _ _ => rfl, h.nodup, fun _ _ => Iff.rfl⟩ ?_ (Or.inl hpc)
            rw [view_user hpc, view_user (by exact hpc)]
            exact .waitMissed (h.not_mem_of_findExitState hpc hch hf) hs
          · exact .idle rfl
        · exact .idle rfl
    · cases hn
  case parent =>
    split at hn
    · cases hn
    · obtain ⟨c, hpc, hn⟩ := Option.bind_eq_some_iff.mp hn
      obtain ⟨ch, hch, hn⟩ := Option.bind_eq_some_iff.mp hn
      exact h.parentNext hch hpc hn
  case child c =>
    obtain ⟨ch, hch, hn⟩ := Option.bind_eq_some_iff.mp hn
    exact h.childNext hch hn
  -- The four labels that end `load` or user code.
  all_goals
    obtain ⟨ch, hch, hn⟩ := Option.bind_eq_some_iff.mp hn
    obtain ⟨hpc, hn⟩ := Option.ite_none_right_eq_some.mp hn
    rw [Option.some.injEq] at hn
    subst hn
  case loadReturns => exact h.setChild hch (.loadReturns hpc _) rfl rfl rfl
  case loadFaults => exact h.setChild hch (.enter (Or.inl ⟨hpc, rfl⟩) (Or.inl rfl)) rfl rfl rfl
  case exit =>
    exact h.setChild hch (.enter (Or.inr ⟨hpc, Or.inl ⟨_, rfl⟩⟩) (Or.inl rfl)) rfl rfl rfl
  case kill =>
    exact h.setChild hch (.enter (Or.inr ⟨hpc, Or.inr rfl⟩) (Or.inr ⟨rfl, rfl⟩)) rfl rfl rfl

theorem FamilyOk.next {s s' : Family} {a : FamilyStep} (h : FamilyOk s)
    (hn : s.next a = some s') : FamilyOk s' :=
  h.step (h.localStep hn)

theorem FamilyOk.of_reachable {s : Family} (h : family.Reachable s) : FamilyOk s := by
  refine System.Reachable.invariant (S := family) ?_ (fun _ _ _ hs hn => hs.next hn) h
  rintro s rfl
  exact ⟨List.nodup_nil, by simp [Family.initial], by simp [Family.initial]⟩

/-! ## Agreement -/

/-- A `process_wait` on a tid whose status has been collected returns -1 and
    leaves the parent in user code. -/
theorem FamilyOk.wait_again {s : Family} (h : FamilyOk s) {c : Nat} {ch : Child}
    (hc : s.children c = some ch) (hres : ch.results ≠ []) (hpc : s.pc = .user) :
    s.next (.wait c) = some (s.setChild c { ch with results := ch.results ++ [-1] }) := by
  obtain ⟨hs, hnot, -⟩ := (h.child c ch hc).done hres
  have hf : s.findExitState c = none := by
    cases hf : s.findExitState c with
    | none => rfl
    | some k =>
      obtain ⟨rfl, hk⟩ := h.findExitState hpc hf
      exact absurd hk hnot
  simp [Family.next, hpc, hf, Family.returned, hc, hs]

/-- `exit` and `process_wait` agree under every interleaving.  The results of
    the `process_wait` calls on a child start with the status it handed to
    `exit` (-1 if it was killed) and go on with -1; once there is a result, a
    further call neither blocks nor touches the record; and the parent is never
    asleep on `exit_wait` at 0 when the child is past its signalling code. -/
theorem processWait_agrees_with_exit {s : Family} (h : family.Reachable s) {c : Nat} {ch : Child}
    (hc : s.children c = some ch) :
    (∀ r rest, ch.results = r :: rest → ch.status = some r ∧ ∀ r' ∈ rest, r' = -1) ∧
    (ch.results ≠ [] → s.view c = .user ∧
      (s.pc = .user →
        s.next (.wait c) = some (s.setChild c { ch with results := ch.results ++ [-1] }))) ∧
    ¬ (ch.pc = .gone ∧ s.pc = .waitDown c ∧ s.blocked = true ∧ ch.es.exitWait.value = 0) := by
  have hinv := FamilyOk.of_reachable h
  have hok := hinv.child c ch hc
  refine ⟨hok.agree, fun hres => ⟨(hok.done hres).2.2, hinv.wait_again hc hres⟩, ?_⟩
  rintro ⟨hgone, hpc, -, hv⟩
  have hview := hok.viewOk
  rw [view_self (by rw [hpc]; rfl), hpc] at hview
  exact (hview.2.2.2 hv).1 hgone

/-- A child that exits with 7 while the parent sleeps, waited for twice. -/
theorem processWait_agrees_with_exit_seven :
    ∃ s ch, family.Reachable s ∧ s.children 3 = some ch ∧ ch.results = [7, -1] ∧
      ch.status = some 7 := by
  obtain ⟨s, hs, hp⟩ := System.reachable_of_run (S := family) (s := Family.initial) rfl
    (l := [.exec 3, .parent, .parent, .loadReturns 3 true, .parent, .child 3, .child 3, .parent,
      .parent, .wait 3, .parent, .parent, .exit 3 7, .child 3, .parent, .parent, .child 3,
      .child 3, .child 3, .parent, .parent, .parent, .wait 3])
    (p := fun s => (s.children 3).any fun ch => ch.results == [7, -1]) (by decide)
  obtain ⟨ch, hch, hres⟩ := (Option.any_eq_true _ _).mp hp
  have hres' : ch.results = [7, -1] := by simpa using hres
  exact ⟨s, ch, hs, hch, hres', ((processWait_agrees_with_exit hs hch).1 7 [-1] hres').1⟩

end Pintos.Userprog
