/-
  Pintos.Userprog.ExecLoad

  The exec handshake: `process_execute` sleeps on `load_wait` until the child
  comes back from `load`.

  The system is that of `ExitState` with the command lines and with what `load` meets.
  A child whose program can be opened and is accepted builds its stack; it faults there
  when the arguments do not fit, or when the stack page has been evicted while they are
  pushed and cannot be brought back.

  Result:
  - the handshake completes in every run in which neither happens; a program with an
    argument of 4093 characters is one that breaks it
-/

import Pintos.Userprog.ArgumentStack
import Pintos.Userprog.ExitWait

namespace Pintos.Userprog

open Pintos.Base Pintos.Lib Function

/-- The family, the command line of each child and what its `load` meets. -/
structure Execs where
  family : Family
  cmdLine : Nat → List UInt8
  env : Nat → LoadEnv

inductive ExecStep where
  /-- `process_execute` with a command line that `copy_in_string` accepts. -/
  | exec (c : Nat) (cmdLine : List UInt8) (env : LoadEnv)
  /-- `load` fails before it builds the stack. -/
  | loadFails (c : Nat)
  /-- `setup_stack` pushes the arguments, and `load` ends.  If `lost`, the stack page is
      evicted meanwhile and cannot be loaded again. -/
  | setupStack (c : Nat) (lost : Bool)
  | other (a : FamilyStep)

namespace Execs

/-- `setup_stack` gets through with the command line of `c`. -/
def argumentsFit (s : Execs) (c : Nat) : Bool := (setupArguments (fun _ => 0) (s.cmdLine c)).isSome

/-- `load` of `c` comes to the stack. -/
def comesToStack (s : Execs) (c : Nat) : Bool := reachesStack (s.env c) (s.cmdLine c)

def move (s : Execs) (a : FamilyStep) : Option Execs :=
  (s.family.next a).map fun f => { s with family := f }

def next (s : Execs) : ExecStep → Option Execs
  | .exec c line env =>
    -- `thread_create` asserts that the first 15 characters have a name for the thread
    if line.length < pgSize ∧ (strtokR 32 (line.take 15)).isSome then
      (s.family.next (.exec c)).map fun f => ⟨f, update s.cmdLine c line, update s.env c env⟩
    else none
  | .loadFails c => if s.comesToStack c then none else s.move (.loadReturns c false)
  | .setupStack c lost =>
    if !s.comesToStack c then none
    else if s.argumentsFit c && !lost then s.move (.loadReturns c true)
    else s.move (.loadFaults c)
  | .other (.exec _) | .other (.loadFaults _) | .other (.loadReturns _ _) => none
  | .other a => s.move a

/-- The child is gone and its parent sleeps for ever. -/
def stuck (s : Execs) (c : Nat) : Prop :=
  ∃ ch, s.family.children c = some ch ∧ ch.pc = .gone ∧ s.family.pc = .execDown c ∧
    s.family.blocked = true ∧ ch.es.loadWait.value = 0

end Execs

def execs : System Execs ExecStep where
  start s := s.family = Family.initial ∧ s.cmdLine = fun _ => []
  next := Execs.next

/-- When the arguments are pushed, they fit on the stack, and the stack page is there. -/
def stackReady (s : Execs) : ExecStep → Prop
  | .setupStack c lost => argumentBytes (s.cmdLine c) ≤ pgSize ∧ lost = false
  | _ => True

/-! ## The invariant -/

/-- The child has not yet come back from `load`. -/
def ChildPc.loading : ChildPc → Bool
  | .load | .setLoadSuccess _ | .upLoadWait _ => true
  | _ => false

/-- The parent is before the end of its `sema_down` on the record of `c`. -/
def ParentPc.execs (c : Nat) : ParentPc → Prop
  | .execSetTid c' | .execPush c' | .execDown c' => c' = c
  | _ => False

/-- A `sema_up` on `load_wait` has happened or is still to come. -/
def Pending (ch : Child) : Prop := ch.pc.loading = true ∨ 0 < ch.es.loadWait.value

def Handshake (s : Family) : Prop :=
  ∀ c ch, s.children c = some ch → s.pc.execs c → Pending ch

variable {s s' : Family} {c : Nat} {ch : Child}

theorem execs_view : (s.view c).execs c ↔ s.pc.execs c := by
  rw [Family.view]
  split
  · rfl
  · rename_i hne
    cases hpc : s.pc <;> simp_all [ParentPc.execs, ParentPc.child?]

theorem Handshake.change (h : Handshake s) {ch' : Child} (hch : Change s s' c ch')
    (hpending : (s'.view c).execs c → Pending ch') : Handshake s' := by
  have hall := hch.forall (P := fun v _ k ck => v.execs k → Pending ck)
    (fun k ck hk hexec => h k ck hk (execs_view.mp hexec)) hpending
  exact fun k ck hk hexec => hall k ck hk (execs_view.mpr hexec)

/-- After `load` only the parent takes the signal. -/
theorem Pending.of_loadWait {ch' : Child} (hp : Pending ch) (hload : ch.pc.loading = false)
    (hwait : ch'.es.loadWait = ch.es.loadWait) : Pending ch' := by
  refine Or.inr ?_
  rw [hwait]
  exact hp.resolve_left (by rw [hload]; exact Bool.false_ne_true)

/-- A child that does not fault in `load` comes to its `sema_up`. -/
theorem Pending.childStep {a : FamilyStep} {ch' : Child} (hp : Pending ch)
    (hs : ChildStep a c ch ch') (ha : a ≠ .loadFaults c) : Pending ch' := by
  cases hs with
  | loadReturns | setLoadSuccess => exact Or.inl rfl
  | upLoadWait => exact Or.inr (Nat.succ_pos _)
  | enter henter =>
    rcases henter with ⟨-, hfault⟩ | ⟨hpc, -⟩
    · exact absurd hfault ha
    · exact hp.of_loadWait (by rw [hpc]; rfl) rfl
  | _ hpc => exact hp.of_loadWait (by rw [hpc]; rfl) rfl

/-- Only the parent's `sema_down` takes the signal. -/
theorem Pending.parentStep {v v' : ParentPc} {l l' : Prop} {ch' : Child}
    (hs : ParentStep c l ch v v' l' ch') (hp : v.execs c → Pending ch) (hv : v'.execs c) :
    Pending ch' := by
  cases hs with
  | execSetTid | execPush => exact hp rfl
  | execSleep hzero =>
    -- the semaphore is at 0, so the child is still in `load`
    exact Or.inl ((hp rfl).resolve_right (by rw [hzero]; exact Nat.lt_irrefl 0))
  | waitTestExited => split at hv <;> exact hv.elim
  | _ => exact hv.elim

/-- Every step but a fault inside `load` keeps the handshake alive. -/
theorem Handshake.next (h : Handshake s) (hok : FamilyOk s) {a : FamilyStep}
    (ha : ∀ k, a ≠ .loadFaults k) (hn : s.next a = some s') : Handshake s' := by
  cases hok.localStep hn with
  | idle heq => exact heq ▸ h
  | exec c _ hch => exact h.change hch fun _ => Or.inl rfl
  | child c ch ch' hc hch hview _ hstep =>
    refine h.change hch fun hexec => ?_
    rw [hview] at hexec
    exact (h c ch hc (execs_view.mp hexec)).childStep hstep (ha c)
  | parent c ch ch' hc hch hstep =>
    exact h.change hch (.parentStep hstep fun hexec => h c ch hc (execs_view.mp hexec))

/-! ## The handshake -/

/-- The family is consistent, the handshake is alive, and the command lines are those that
    `copy_in_string` accepts. -/
structure ExecOk (s : Execs) : Prop where
  family : FamilyOk s.family
  handshake : Handshake s.family
  short : ∀ c, (s.cmdLine c).length < pgSize

theorem argumentsFit_iff {s : Execs} (hlen : (s.cmdLine c).length < pgSize) :
    s.argumentsFit c = true ↔ argumentBytes (s.cmdLine c) ≤ pgSize :=
  setupArguments_isSome_iff hlen

theorem ExecOk.move {s s' : Execs} (h : ExecOk s) {a : FamilyStep} (ha : ∀ k, a ≠ .loadFaults k)
    (hn : s.move a = some s') : ExecOk s' := by
  obtain ⟨f, hnext, rfl⟩ := Option.map_eq_some_iff.mp hn
  exact ⟨h.family.next hnext, h.handshake.next h.family ha hnext, h.short⟩

theorem ExecOk.next {s s' : Execs} (h : ExecOk s) {a : ExecStep} (ha : stackReady s a)
    (hn : s.next a = some s') : ExecOk s' := by
  cases a with
  | exec c line env =>
    simp only [Execs.next] at hn
    split at hn
    · rename_i hline
      obtain ⟨f, hf, rfl⟩ := Option.map_eq_some_iff.mp hn
      refine ⟨h.family.next hf, h.handshake.next h.family (by simp) hf, fun k => ?_⟩
      dsimp only
      by_cases heq : k = c
      · rw [heq, update_self]
        exact hline.1
      · rw [update_of_ne heq]
        exact h.short k
    · cases hn
  | loadFails c =>
    simp only [Execs.next] at hn
    split at hn
    · cases hn
    · exact h.move (by simp) hn
  | setupStack c lost =>
    obtain ⟨hfit, rfl⟩ := ha
    have hfits : s.argumentsFit c = true := (argumentsFit_iff (h.short c)).mpr hfit
    simp only [Execs.next, hfits, Bool.not_false, Bool.and_self, if_true] at hn
    split at hn
    · cases hn
    · exact h.move (by simp) hn
  | other a =>
    cases a with
    | exec | loadFaults | loadReturns => cases hn
    | wait | parent | exit | kill | child => exact h.move (by simp) hn

/-- The parent of a child that is gone does not sleep on `load_wait` with value
    0. -/
theorem exec_handshake_completes {s : Execs} (h : execs.Reaches stackReady s) (c : Nat) :
    ¬s.stuck c := by
  have hok : ExecOk s := by
    refine System.Reaches.invariant (I := ExecOk) ?_ (fun _ _ _ hs ha hn => hs.next ha hn) h
    rintro s ⟨hfam, hline⟩
    refine ⟨hfam ▸ .of_reachable (.start rfl), fun k ck hk => ?_, fun k => ?_⟩
    · rw [hfam] at hk
      cases hk
    · rw [hline]
      exact Nat.zero_lt_succ _
  rintro ⟨ch, hch, hgone, hpc, -, hzero⟩
  rcases hok.handshake c ch hch (by rw [hpc]; rfl) with hload | hpos
  · rw [hgone] at hload
    cases hload
  · rw [hzero] at hpos
    exact absurd hpos (Nat.lt_irrefl 0)

/-- A parent in `process_execute`, asleep, whose child has started. -/
def Execs.waiting (line : List UInt8) : Execs :=
  ⟨⟨.execDown 3, true, [3], update (update (update (fun _ => none) 3
      (some .fresh)) 3 (some { Child.fresh with es := { ExitState.fresh with tid := 3 } })) 3
      (some { Child.fresh with es := { ExitState.fresh with tid := 3, loadWait := ⟨0, true⟩ } })⟩,
    update (fun _ => []) 3 line, update (fun _ => .all) 3 .all⟩

/-- The parent falls asleep before the child has run. -/
theorem reaches_waiting (ok : Execs → ExecStep → Prop) {line : List UInt8}
    (hlen : line.length < pgSize) (hname : (strtokR 32 (line.take 15)).isSome = true)
    (hexec : ∀ s, ok s (.exec 3 line .all)) (hother : ∀ s a, ok s (.other a)) :
    execs.Reaches ok (.waiting line) := by
  have h₀ : execs.Reaches ok ⟨Family.initial, fun _ => [], fun _ => .all⟩ := .start ⟨rfl, rfl⟩
  have h₁ := h₀.step (hexec _) (if_pos ⟨hlen, hname⟩)
  have h₂ := h₁.step (hother _ .parent) rfl
  have h₃ := h₂.step (hother _ .parent) rfl
  exact h₃.step (hother _ .parent) rfl

/-- With the line `ls`, the child comes back from `load`. -/
theorem exec_handshake_completes_short : ∃ s, execs.Reaches stackReady s ∧
    s.family.pc = .execDown 3 ∧ s.family.blocked = true ∧
    (s.family.children 3).map Child.pc = some (.setLoadSuccess true) ∧ ¬s.stuck 3 := by
  have h : execs.Reaches stackReady (.waiting [108, 115]) :=
    reaches_waiting _ (by decide) (by decide) (fun _ => trivial) fun _ _ => trivial
  have hfit : argumentBytes [108, 115] ≤ pgSize := by
    rw [argumentBytes, spaceRuns_of_not_mem (by decide)]
    decide
  have hfits : (Execs.waiting [108, 115]).argumentsFit 3 = true :=
    (argumentsFit_iff (by decide)).mpr hfit
  have hcomes : (Execs.waiting [108, 115]).comesToStack 3 = true := by decide +kernel
  have hready : stackReady (.waiting [108, 115]) (.setupStack 3 false) := ⟨hfit, rfl⟩
  have h₁ := h.step hready
    (by simp only [execs, Execs.next, hcomes, hfits]; rfl)
  exact ⟨_, h₁, rfl, rfl, rfl, exec_handshake_completes h₁ 3⟩

/-- The program `a` with an argument of 4093 characters fills the stack page with the
    characters; the store of the null pointer that ends `argv` faults, and the child
    leaves without a `sema_up`. -/
theorem exec_handshake_broken : ∃ s, execs.Reachable s ∧ s.stuck 3 := by
  have hlen : longLine.length < pgSize := by
    rw [longLine_length]
    decide
  have hfault : (Execs.waiting longLine).argumentsFit 3 = false := by
    rw [Bool.eq_false_iff, ne_eq, argumentsFit_iff hlen]
    show ¬argumentBytes longLine ≤ pgSize
    rw [argumentBytes, longLine_length]
    have h2 : pgSize = 4096 := rfl
    omega
  have hcomes : (Execs.waiting longLine).comesToStack 3 = true := reachesStack_longLine
  have h₀ := reaches_waiting (fun _ _ => True) hlen rfl (fun _ => trivial) fun _ _ => trivial
  have h₁ := h₀.step (a := .setupStack 3 false) trivial
    (by simp only [execs, Execs.next, hcomes, hfault]; rfl)
  have h₂ := h₁.step (a := .other (.child 3)) trivial rfl
  have h₃ := h₂.step (a := .other (.child 3)) trivial rfl
  have h₄ := h₃.step (a := .other (.child 3)) trivial rfl
  exact ⟨_, h₄, _, rfl, rfl, rfl, rfl, rfl⟩

end Pintos.Userprog
