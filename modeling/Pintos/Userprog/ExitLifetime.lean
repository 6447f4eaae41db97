/-
  Pintos.Userprog.ExitLifetime

  Who may still touch an `exit_state` record after the parent has freed it.

  `process_wait` frees the record as soon as it has seen `exited`, or as soon
  as `exit_wait` lets it through, while `exit` still reads `waiting` after it
  has set `exited`, and `kill` raises `exit_wait` before it calls `exit`.  So
  the child can touch a freed record (`touches_freed_record`).  It does not in
  runs in which the parent gets past these two points only after the child has
  left its signalling code (`signalsFirst`).
-/

import Pintos.Userprog.ExitWait

namespace Pintos.Userprog

open Pintos.Base Family Function

variable {ch' : Child} {c : Nat}

/-- The child's next statement reads or writes its exit record. -/
def ChildPc.touches : ChildPc → Bool
  | .load | .user | .gone => false
  | _ => true

/-- Some child is about to read or write a record its parent has freed. -/
def Family.touchesFreed (s : Family) (c : Nat) : Bool :=
  (s.children c).any fun ch => ch.es.freed && ch.pc.touches

/-- Condition on a step: if the parent tests `exited` and finds it set, or
    downs `exit_wait` and finds it positive, then the child has already left
    its signalling code. -/
def signalsFirst (s : Family) (a : FamilyStep) : Bool :=
  match a, s.pc with
  | .parent, .waitTestExited c => (s.children c).all fun ch => !ch.es.exited || ch.pc == .gone
  | .parent, .waitDown c =>
    (s.children c).all fun ch => ch.es.exitWait.value == 0 || ch.pc == .gone
  | _, _ => true

/-- The child is still on its way through `start_process`. -/
def ChildPc.starting : ChildPc → Bool
  | .load | .setLoadSuccess _ | .upLoadWait _ => true
  | _ => false

/-- The lifetime invariant of one child: where the parent is about to free the
    record, or has freed it, the child is gone.  `load_wait` is raised once, as
    the last statement of a child whose load failed. -/
structure LifeOk (view : ParentPc) (ch : Child) : Prop where
  loadRaised : 0 < ch.es.loadWait.value ∨ (∃ c, view = .execTestLoad c) →
    ch.pc.starting = false ∧ (ch.es.loadSuccess = false → ch.pc = .gone)
  freeing : (∃ c, view = .execRemove c ∨ view = .execFree c ∨ view = .waitReadStatus c ∨
    ∃ r, view = .waitFree c r) → ch.pc = .gone
  freed : ch.es.freed = true → ch.pc = .gone

section Steps

variable {a : FamilyStep} {v : ParentPc} {ch : Child}

/-- A statement of a child that is not gone and has not raised `load_wait`
    yet, or whose load succeeded. -/
theorem LifeOk.child (h : LifeOk v ch) (hgone : ch.pc ≠ .gone)
    (hsema : ch'.es.loadWait.value = ch.es.loadWait.value) (hfreed : ch'.es.freed = ch.es.freed)
    (hraised : ch.pc.starting = false → ch'.pc.starting = false ∧
      (ch'.es.loadSuccess = false → ch.es.loadSuccess = false)) : LifeOk v ch' where
  loadRaised hr := by
    obtain ⟨hstart, hload⟩ := h.loadRaised (hsema ▸ hr)
    obtain ⟨hstart', hload'⟩ := hraised hstart
    exact ⟨hstart', fun hf => absurd (hload (hload' hf)) hgone⟩
  freeing hv := absurd (h.freeing hv) hgone
  freed hf := absurd (h.freed (hfreed ▸ hf)) hgone

/-- The one `sema_up` on `load_wait`. -/
theorem LifeOk.upLoadWait (h : LifeOk v ch) {ok : Bool} (hpc : ch.pc = .upLoadWait ok)
    (hload : ch.es.loadSuccess = ok) (sema : Sema) :
    LifeOk v { ch with pc := if ok then .user else .gone,
                       es := { ch.es with loadWait := sema } } where
  loadRaised _ := by cases ok <;> simp [ChildPc.starting, hload]
  freeing hv := absurd (h.freeing hv) (by simp [hpc])
  freed hf := absurd (h.freed hf) (by simp [hpc])

/-- A statement of the parent that does not bring it closer to a `free`. -/
theorem LifeOk.parent {v' : ParentPc} (h : LifeOk v ch) (hpc : ch'.pc = ch.pc)
    (hsema : 0 < ch'.es.loadWait.value → 0 < ch.es.loadWait.value)
    (hload : ch'.es.loadSuccess = ch.es.loadSuccess) (hfreed : ch'.es.freed = ch.es.freed)
    (htest : ∀ c, v' ≠ .execTestLoad c)
    (hfree : (∃ c, v' = .execRemove c ∨ v' = .execFree c ∨ v' = .waitReadStatus c ∨
      ∃ r, v' = .waitFree c r) → ch.pc = .gone) : LifeOk v' ch' where
  loadRaised hr := by
    rw [hpc, hload]
    refine h.loadRaised (Or.inl ?_)
    rcases hr with hr | ⟨c, hc⟩
    · exact hsema hr
    · exact absurd hc (htest c)
  freeing hv := hpc ▸ hfree hv
  freed hf := hpc ▸ h.freed (hfreed ▸ hf)

/-- Freeing a record whose child is gone. -/
theorem LifeOk.free (hgone : ch.pc = .gone) (results : List Int) :
    LifeOk .user { ch with es := { ch.es with freed := true }, results := results } where
  loadRaised _ := by simp [hgone, ChildPc.starting]
  freeing _ := hgone
  freed _ := hgone

theorem LifeOk.childStep (h : LifeOk v ch) (hok : PcOk ch) (hs : ChildStep a c ch ch') :
    LifeOk v ch' := by
  cases hs with
  | upLoadWait hpc w =>
    simp only [PcOk, hpc] at hok
    exact h.upLoadWait hpc hok.2 _
  | enter hpc hpc' =>
    refine h.child (by rcases hpc with ⟨hpc, -⟩ | ⟨hpc, -⟩ <;> simp [hpc]) rfl rfl fun _ => ⟨?_, id⟩
    rcases hpc' with rfl | ⟨rfl, -⟩ <;> rfl
  | exitTestWaiting hpc =>
    refine h.child (by simp [hpc]) rfl rfl fun _ => ⟨?_, id⟩
    cases ch.es.waiting <;> rfl
  | loadReturns hpc _ | setLoadSuccess hpc | killSetStatus hpc | killUp hpc _ | exitSetStatus hpc
  | exitSetExited hpc | exitUp hpc _ =>
    exact h.child (by simp [hpc]) rfl rfl (by simp [hpc, ChildPc.starting])

/-- The parent's steps, under the condition that it passes its test of `exited`
    and its `sema_down` only behind a child that is gone. -/
theorem LifeOk.parentStep {l l' : Prop} {v' : ParentPc} (h : LifeOk v ch)
    (hs : ParentStep c l ch v v' l' ch')
    (hsig : v = .waitTestExited c ∧ ch.es.exited = true ∨
      v = .waitDown c ∧ ch.es.exitWait.value ≠ 0 → ch.pc = .gone) : LifeOk v' ch' := by
  cases hs with
  | execSetTid | execPush _ | waitFind _ | waitRemove _ | waitSetWaiting | waitSleep _ _ =>
    exact h.parent rfl id rfl rfl (by simp) (by simp)
  | execSleep _ w => exact h.parent rfl (by simp) rfl rfl (by simp) (by simp)
  | execDown hv sema =>
    have hraised := h.loadRaised (Or.inl (Nat.pos_of_ne_zero hv))
    exact ⟨fun _ => hraised, by simp, h.freed⟩
  | execStarted hload => exact ⟨fun _ => h.loadRaised (Or.inr ⟨c, rfl⟩), by simp, h.freed⟩
  | execFailed hload =>
    have hraised := h.loadRaised (Or.inr ⟨c, rfl⟩)
    exact ⟨fun _ => hraised, fun _ => hraised.2 hload, h.freed⟩
  | execRemove _ =>
    exact h.parent rfl id rfl rfl (by simp) fun _ => h.freeing ⟨c, Or.inl rfl⟩
  | execFree => exact LifeOk.free (h.freeing ⟨c, Or.inr (Or.inl rfl)⟩) ch.results
  | waitTestExited =>
    cases he : ch'.es.exited with
    | true =>
      exact h.parent rfl id rfl rfl (by simp) fun _ => hsig (Or.inl ⟨rfl, he⟩)
    | false => exact h.parent rfl id rfl rfl (by simp) (by simp)
  | waitDown hv w => exact h.parent rfl id rfl rfl (by simp) fun _ => hsig (Or.inr ⟨rfl, hv⟩)
  | waitReadStatus =>
    exact h.parent rfl id rfl rfl (by simp) fun _ => h.freeing ⟨c, Or.inr (Or.inr (Or.inl rfl))⟩
  | waitFree r =>
    exact LifeOk.free (h.freeing ⟨c, Or.inr (Or.inr (Or.inr ⟨r, rfl⟩))⟩) (ch.results ++ [r])
  | waitMissed _ _ => exact ⟨h.loadRaised, h.freeing, h.freed⟩

end Steps

/-- The lifetime invariant of every child. -/
def FamilyAlive (s : Family) : Prop :=
  ∀ c ch, s.children c = some ch → LifeOk (s.view c) ch

theorem FamilyAlive.change {s s' : Family} (h : FamilyAlive s) (hch : Change s s' c ch')
    (hok : LifeOk (s'.view c) ch') : FamilyAlive s' :=
  hch.forall (P := fun v _ _ ch => LifeOk v ch) h hok

theorem FamilyAlive.next {s s' : Family} {a : FamilyStep} (hinv : FamilyOk s) (h : FamilyAlive s)
    (hsig : signalsFirst s a = true) (hn : s.next a = some s') : FamilyAlive s' := by
  cases hinv.localStep hn with
  | idle heq => exact heq ▸ h
  | exec c _ hch hview _ =>
    refine h.change hch ?_
    rw [hview]
    constructor <;> simp [Child.fresh, ExitState.fresh]
  | child c ch ch' hc hch hview _ hstep =>
    refine h.change hch ?_
    rw [hview]
    exact (h c ch hc).childStep (hinv.child c ch hc).pcOk hstep
  | parent c ch ch' hc hch hstep hpc =>
    refine h.change hch ((h c ch hc).parentStep hstep fun hwait => ?_)
    rcases hpc with hpc | ⟨rfl, hpc⟩
    · simp [view_user hpc] at hwait
    · rw [hpc] at hwait
      rcases hwait with ⟨hpc, he⟩ | ⟨hpc, hv⟩
      · simpa [signalsFirst, hpc, hc, he] using hsig
      · simpa [signalsFirst, hpc, hc, hv] using hsig

/-- In every run in which the parent passes its test of `exited` and its
    `sema_down` only behind a child that has left its signalling code, no child
    reads or writes a record that its parent has freed. -/
theorem child_never_touches_freed {s : Family}
    (h : family.Reaches (fun s a => signalsFirst s a = true) s) (c : Nat) :
    s.touchesFreed c = false := by
  have hinv : FamilyOk s ∧ FamilyAlive s := by
    refine System.Reaches.invariant (S := family) (I := fun s => FamilyOk s ∧ FamilyAlive s) ?_
      (fun s a s' hs hok hn => ⟨hs.1.next hn, hs.2.next hs.1 hok hn⟩) h
    rintro s rfl
    exact ⟨⟨List.nodup_nil, by simp [Family.initial], by simp [Family.initial]⟩,
      by simp [FamilyAlive, Family.initial]⟩
  cases hc : s.children c with
  | none => simp [Family.touchesFreed, hc]
  | some ch =>
    cases hf : ch.es.freed with
    | false => simp [Family.touchesFreed, hc, hf]
    | true => simp [Family.touchesFreed, hc, (hinv.2 c ch hc).freed hf, ChildPc.touches]

/-- A parent that sleeps until the child's last `sema_up` frees the record
    behind it. -/
theorem child_never_touches_freed_sleeping :
    ∃ s, family.Reaches (fun s a => signalsFirst s a = true) s ∧
      (s.children 3).any (fun ch => ch.es.freed) = true ∧ s.touchesFreed 3 = false := by
  obtain ⟨s, hs, hp⟩ := System.reaches_of_run (S := family)
    (fun s a => signalsFirst s a = true) (s := Family.initial) rfl
    (l := [.exec 3, .parent, .parent, .loadReturns 3 true, .parent, .child 3, .child 3, .parent,
      .parent, .wait 3, .parent, .parent, .parent, .parent, .exit 3 7, .child 3, .child 3,
      .child 3, .child 3, .parent, .parent, .parent])
    (p := fun s => (s.children 3).any fun ch => ch.es.freed) (by decide)
  exact ⟨s, hs, hp, child_never_touches_freed hs 3⟩

/-- The record can be freed between the child's write of `exited` and its read
    of `waiting`, and between `kill`'s `sema_up` and its call of `exit`. -/
theorem touches_freed_record : (∃ s, family.Reachable s ∧ s.touchesFreed 3 = true ∧
      (s.children 3).any (fun ch => ch.pc == .exitTestWaiting) = true) ∧
    (∃ s, family.Reachable s ∧ s.touchesFreed 3 = true ∧
      (s.children 3).any (fun ch => ch.pc == .exitSetStatus (-1)) = true) := by
  constructor
  · obtain ⟨s, hs, hp⟩ := System.reachable_of_run (S := family) (s := Family.initial) rfl
      (l := [.exec 3, .parent, .parent, .loadReturns 3 true, .child 3, .child 3, .parent, .parent,
        .exit 3 0, .child 3, .child 3, .wait 3, .parent, .parent, .parent, .parent, .parent])
      (p := fun s => s.touchesFreed 3 && (s.children 3).any fun ch => ch.pc == .exitTestWaiting)
      (by decide)
    exact ⟨s, hs, by simpa using hp⟩
  · obtain ⟨s, hs, hp⟩ := System.reachable_of_run (S := family) (s := Family.initial) rfl
      (l := [.exec 3, .parent, .parent, .loadReturns 3 true, .child 3, .child 3, .parent, .parent,
        .wait 3, .parent, .parent, .parent, .parent, .kill 3, .child 3, .child 3, .parent,
        .parent, .parent])
      (p := fun s => s.touchesFreed 3 && (s.children 3).any fun ch => ch.pc == .exitSetStatus (-1))
      (by decide)
    exact ⟨s, hs, by simpa using hp⟩

end Pintos.Userprog
