/-
  Pintos.Userprog.ExitMappings

  Memory mappings and the exit handshake: `exit` publishes the status and wakes
  the parent before `thread_exit` runs `process_exit`, whose first statement,
  `memory_mapping_table_unmap_all`, writes the dirty pages of the mappings back.

  The system is that of `ExitState` with the mappings of the children.  An
  eviction writes a dirty page back as well.

  Result:
  - in every run in which the parent gets past the handshake only after the
    dirty pages of the child are written back, the files hold what the child had
    stored when `process_wait` returns; otherwise it may return first
-/

import Pintos.Userprog.ExitWait

namespace Pintos.Userprog

open Pintos.Base Function

/-- A page of a mapping that is in memory: its place in the file, its contents,
    its dirty bit. -/
structure MappedPage where
  file : Nat
  ofs : Nat
  bytes : List UInt8
  dirty : Bool
  deriving DecidableEq, Repr

abbrev Mapping := List MappedPage

/-- The contents of the files, page by page. -/
abbrev Files := Nat → Nat → List UInt8

/-- The family, the `mmap_table` of each child, and the files.  The last two
    fields record history for the specification: the pages that were dirty when
    the child called `exit`, and what has been written to the files since, newest
    first. -/
structure Mapped where
  family : Family
  mmapTable : Nat → List Mapping
  files : Files
  dirtyAtExit : Nat → List MappedPage
  written : Nat → List MappedPage

inductive MapStep where
  | family (a : FamilyStep)
  /-- `SYS_MMAP`. -/
  | mmap (c : Nat) (m : Mapping)
  /-- The child stores into page `j` of mapping `i`. -/
  | store (c i j : Nat) (bytes : List UInt8)
  /-- Page `j` of mapping `i` is evicted and loaded again. -/
  | evict (c i j : Nat)
  /-- `SYS_MUNMAP`. -/
  | munmap (c i : Nat)
  /-- `process_exit` unmaps the next page, or goes on to the next mapping. -/
  | unmapPage (c : Nat)

/-- The child that leaves user code by the step. -/
def FamilyStep.leaver? : FamilyStep → Option Nat
  | .exit c _ | .kill c => some c
  | _ => none

namespace Mapped

/-- The child is at a statement that satisfies `p`. -/
def childAt (s : Mapped) (c : Nat) (p : ChildPc → Bool) : Bool :=
  (s.family.children c).any fun ch => p ch.pc

def setMaps (s : Mapped) (c : Nat) (ms : List Mapping) : Mapped :=
  { s with mmapTable := update s.mmapTable c ms }

def dirtyPages (s : Mapped) (c : Nat) : List MappedPage :=
  (s.mmapTable c).flatten.filter (·.dirty)

/-- `file_write_at` of a page, if it is dirty. -/
def writeBack (s : Mapped) (pg : MappedPage) : Mapped :=
  if pg.dirty then
    { s with
      files := update s.files pg.file (update (s.files pg.file) pg.ofs pg.bytes)
      written := fun c => pg :: s.written c }
  else s

/-- The history of a child starts when it leaves user code. -/
def onExit (s : Mapped) (a : FamilyStep) : Mapped :=
  match a.leaver? with
  | some c =>
    { s with
      dirtyAtExit := update s.dirtyAtExit c (s.dirtyPages c)
      written := update s.written c [] }
  | none => s

/-- The next step of `memory_mapping_table_unmap_all`. -/
def unmapNext (s : Mapped) (c : Nat) : Option Mapped :=
  match s.mmapTable c with
  | [] => none
  | [] :: ms => some (s.setMaps c ms)
  | (pg :: pgs) :: ms => some ((s.writeBack pg).setMaps c (pgs :: ms))

def next (s : Mapped) : MapStep → Option Mapped
  | .family a => (s.family.next a).map fun f => { s.onExit a with family := f }
  | .mmap c m =>
    if s.childAt c (· == .user) && m.all (!·.dirty) then
      some (s.setMaps c (s.mmapTable c ++ [m]))
    else none
  | .store c i j bytes =>
    if s.childAt c (· == .user) then
      ((s.mmapTable c)[i]?).bind fun m => (m[j]?).map fun pg =>
        s.setMaps c ((s.mmapTable c).set i (m.set j { pg with bytes := bytes, dirty := true }))
    else none
  | .evict c i j =>
    ((s.mmapTable c)[i]?).bind fun m => (m[j]?).map fun pg =>
      (s.writeBack pg).setMaps c ((s.mmapTable c).set i (m.set j { pg with dirty := false }))
  | .munmap c i =>
    if s.childAt c (· == .user) then
      ((s.mmapTable c)[i]?).map fun m =>
        (m.foldl writeBack s).setMaps c ((s.mmapTable c).eraseIdx i)
    else none
  | .unmapPage c => if s.childAt c (· == .gone) then s.unmapNext c else none

/-- `memory_mapping_table_unmap_all` has no dirty page left to write. -/
def clean (s : Mapped) (c : Nat) : Bool := (s.dirtyPages c).isEmpty

end Mapped

def mapped : System Mapped MapStep where
  start s := s.family = Family.initial ∧ s.mmapTable = (fun _ => []) ∧
    s.dirtyAtExit = (fun _ => []) ∧ s.written = fun _ => []
  next := Mapped.next

/-- The parent gets past the handshake, by `exited` or by `exit_wait`, only when
    the child has no dirty page left. -/
def passesClean (s : Mapped) : MapStep → Bool
  | .family .parent =>
    match s.family.pc with
    | .waitTestExited c => !(s.family.children c).any (·.es.exited) || s.clean c
    | .waitDown c => !(s.family.children c).any (·.es.exitWait.value != 0) || s.clean c
    | _ => true
  | _ => true

/-! ## The handshake -/

variable {s s' : Family} {c : Nat} {ch : Child} {a : FamilyStep}

/-- The parent is past the handshake with the child. -/
def Passed (v : ParentPc) (ch : Child) : Prop :=
  match v with
  | .waitReadStatus _ | .waitFree _ _ => True
  | _ => ch.results ≠ []

/-- The parent goes past the handshake by its next statement. -/
def Passes (s : Family) (c : Nat) (ch : Child) : Prop :=
  s.pc = .waitTestExited c ∧ ch.es.exited = true ∨
    s.pc = .waitDown c ∧ ch.es.exitWait.value ≠ 0

/-- Once it is past the handshake, the child has called `exit`. -/
theorem ChildOk.status_of_passed {v : ParentPc} {l : Prop} (h : ChildOk v l c ch)
    (hp : Passed v ch) : ch.status ≠ none := by
  have hres : ch.results ≠ [] → ch.status ≠ none := by
    intro hne
    obtain ⟨r, rest, hr⟩ := List.exists_cons_of_ne_nil hne
    rw [(h.agree r rest hr).1]
    exact Option.some_ne_none r
  have hview := h.viewOk
  cases v <;> simp only [Passed] at hp
  case waitReadStatus k =>
    rw [hview.2.2]
    exact Option.some_ne_none _
  case waitFree k r =>
    rw [hview.2.2]
    exact Option.some_ne_none _
  all_goals exact hres hp

theorem ChildOk.status_of_user {v : ParentPc} {l : Prop} (h : ChildOk v l c ch)
    (hpc : ch.pc = .user) : ch.status = none := by
  have hpcOk := h.pcOk
  simp only [PcOk, hpc] at hpcOk
  exact hpcOk.1

/-- A child that leaves was in user code, and has its status now. -/
theorem next_leaver (hn : s.next a = some s') (ha : a.leaver? = some c) :
    (∃ ch, s.children c = some ch ∧ ch.pc = .user) ∧
      ∃ ch, s'.children c = some ch ∧ ch.status ≠ none := by
  cases a <;> simp only [FamilyStep.leaver?, Option.some.injEq, reduceCtorEq] at ha
  all_goals
    subst ha
    obtain ⟨ch, hc, hn⟩ := Option.bind_eq_some_iff.mp hn
    split at hn
    · rename_i hpc
      cases hn
      exact ⟨⟨ch, hc, hpc⟩, _, update_self .., Option.some_ne_none _⟩
    · cases hn

/-- The parent does not touch the status. -/
theorem ParentStep.status_eq {v v' : ParentPc} {l l' : Prop} {ch' : Child}
    (h : ParentStep c l ch v v' l' ch') : ch'.status = ch.status := by
  cases h <;> rfl

/-- The parent is past the handshake after its step if it was before, or if it
    passes by the step. -/
theorem ParentStep.passed {v v' : ParentPc} {l l' : Prop} {ch' : Child}
    (h : ParentStep c l ch v v' l' ch') (hview : ViewOk v l ch) (hp : Passed v' ch') :
    Passed v ch ∨ v = .waitTestExited c ∧ ch.es.exited = true ∨
      v = .waitDown c ∧ ch.es.exitWait.value ≠ 0 := by
  cases h with
  | waitTestExited =>
    cases hex : ch.es.exited with
    | true => exact Or.inr (Or.inl ⟨rfl, rfl⟩)
    | false =>
      simp only [hex, Bool.false_eq_true, if_false, Passed] at hp
      exact Or.inl hp
  | waitDown hv w => exact Or.inr (Or.inr ⟨rfl, hv⟩)
  | waitMissed hl hs => exact Or.inl (hview.2 hs hl)
  | waitReadStatus => exact Or.inl trivial
  | waitFree r => exact Or.inl trivial
  | _ => exact Or.inl hp

/-- A status stays. -/
theorem FamilyOk.status_kept (h : FamilyOk s) (hn : s.next a = some s')
    (hc : s.children c = some ch) (hst : ch.status ≠ none) :
    ∃ ch', s'.children c = some ch' ∧ ch'.status ≠ none := by
  -- `k` is the child the step concerns
  have hchange : ∀ {k : Nat} {ck' : Child}, Change s s' k ck' → (k = c → ck'.status ≠ none) →
      ∃ ch', s'.children c = some ch' ∧ ch'.status ≠ none := by
    intro k ck' hch hkept
    by_cases heq : c = k
    · exact ⟨ck', by rw [hch.children, heq, update_self], hkept heq.symm⟩
    · exact ⟨ch, by rw [hch.children, update_of_ne heq, hc], hst⟩
  cases h.localStep hn with
  | idle heq => exact ⟨ch, heq ▸ hc, hst⟩
  | exec k hnone hch =>
    refine hchange hch fun heq => ?_
    rw [heq, hc] at hnone
    cases hnone
  | child k ck ck' hk hch _ _ hstep =>
    refine hchange hch fun heq => ?_
    obtain rfl : ck = ch := Option.some.inj (hk.symm.trans (heq ▸ hc))
    cases hstep with
    | enter => exact Option.some_ne_none _
    | _ => exact hst
  | parent k ck ck' hk hch hstep =>
    refine hchange hch fun heq => ?_
    obtain rfl : ck = ch := Option.some.inj (hk.symm.trans (heq ▸ hc))
    rwa [hstep.status_eq]

/-- The parent is past the handshake after a step if it was before, or if it
    passes by the step. -/
theorem FamilyOk.passed_next (h : FamilyOk s) (hn : s.next a = some s')
    (hc : s'.children c = some ch) (hp : Passed (s'.view c) ch) :
    ∃ ch₀, s.children c = some ch₀ ∧
      (Passed (s.view c) ch₀ ∨ a = .parent ∧ Passes s c ch₀) := by
  have hchange : ∀ {k : Nat} {ck' : Child}, Change s s' k ck' →
      (k = c → ch = ck' → ∃ ch₀, s.children c = some ch₀ ∧
        (Passed (s.view c) ch₀ ∨ a = .parent ∧ Passes s c ch₀)) →
      ∃ ch₀, s.children c = some ch₀ ∧
        (Passed (s.view c) ch₀ ∨ a = .parent ∧ Passes s c ch₀) := by
    intro k ck' hch hself
    rw [hch.children] at hc
    by_cases heq : c = k
    · rw [heq, update_self] at hc
      exact hself heq.symm (Option.some.inj hc).symm
    · rw [update_of_ne heq] at hc
      rw [hch.view c heq] at hp
      exact ⟨ch, hc, Or.inl hp⟩
  cases h.localStep hn with
  | idle heq =>
    subst heq
    exact ⟨ch, hc, Or.inl hp⟩
  | exec k hnone hch hview =>
    refine hchange hch fun heq heq' => ?_
    subst heq heq'
    rw [hview] at hp
    exact absurd rfl hp
  | child k ck ck' hk hch hview _ hstep =>
    refine hchange hch fun heq heq' => ?_
    subst heq heq'
    rw [hview] at hp
    have hres : ch.results = ck.results := by
      cases hstep <;> rfl
    refine ⟨ck, hk, Or.inl ?_⟩
    simpa only [Passed, hres] using hp
  | parent k ck ck' hk hch hstep hpc =>
    refine hchange hch fun heq heq' => ?_
    subst heq heq'
    refine ⟨ck, hk, ?_⟩
    refine (hstep.passed (h.child k ck hk).viewOk hp).imp_right fun hpasses => ?_
    -- at the statements of the handshake the parent is where `view` says
    have hne : s.view k ≠ .user := by
      rcases hpasses with ⟨hv, -⟩ | ⟨hv, -⟩ <;> simp [hv]
    rcases hpc with hpc | ⟨ha, hpc⟩
    · exact absurd (Family.view_user hpc k) hne
    · rw [hpc] at hpasses
      exact ⟨ha, hpasses⟩

/-! ## The invariant -/

/-- The page has the given place in the files. -/
def MappedPage.at (file ofs : Nat) (pg : MappedPage) : Bool := pg.file == file && pg.ofs == ofs

structure MappedOk (s : Mapped) : Prop where
  family : FamilyOk s.family
  exited : ∀ c, s.dirtyAtExit c ≠ [] → ∃ ch, s.family.children c = some ch ∧ ch.status ≠ none
  dirty : ∀ c, ∀ pg ∈ s.dirtyAtExit c, pg.dirty = true
  /-- A page that was dirty at `exit` has been written, or is still mapped. -/
  pending : ∀ c, ∀ pg ∈ s.dirtyAtExit c, pg ∈ s.written c ∨ pg ∈ (s.mmapTable c).flatten
  /-- The files hold what was written last. -/
  content : ∀ c file ofs pg, (s.written c).find? (MappedPage.at file ofs) = some pg →
    s.files file ofs = pg.bytes
  passed : ∀ c ch, s.family.children c = some ch → Passed (s.family.view c) ch →
    ∀ pg ∈ s.dirtyAtExit c, pg ∈ s.written c

section

variable {s s' : Mapped} {pg : MappedPage} {k : Nat}

theorem written_writeBack {x : MappedPage} (h : x ∈ s.written k) :
    x ∈ (s.writeBack pg).written k := by
  rw [Mapped.writeBack]
  split
  · exact List.mem_cons_of_mem pg h
  · exact h

theorem mem_written_writeBack (h : pg.dirty = true) : pg ∈ (s.writeBack pg).written k := by
  rw [Mapped.writeBack, if_pos h]
  exact List.mem_cons_self

@[simp] theorem dirtyAtExit_writeBack : (s.writeBack pg).dirtyAtExit = s.dirtyAtExit := by
  rw [Mapped.writeBack]
  split <;> rfl

theorem MappedOk.writeBack (h : MappedOk s) : MappedOk (s.writeBack pg) := by
  by_cases hd : pg.dirty = true
  · rw [Mapped.writeBack, if_pos hd]
    exact { h with
      pending := fun c x hx => (h.pending c x hx).imp_left (List.mem_cons_of_mem pg)
      content := by
        intro c file ofs w hw
        rw [List.find?_cons] at hw
        split at hw
        · rename_i hat
          simp only [MappedPage.at, Bool.and_eq_true, beq_iff_eq] at hat
          cases hw
          dsimp only
          rw [← hat.1, ← hat.2, update_self, update_self]
        · -- a write to another place
          rename_i hat
          rw [← h.content c file ofs w hw]
          dsimp only
          by_cases hf : file = pg.file
          · subst hf
            rw [update_self, update_of_ne]
            rintro rfl
            simp [MappedPage.at] at hat
          · rw [update_of_ne hf]
      passed := fun c ch hc hp x hx => List.mem_cons_of_mem pg (h.passed c ch hc hp x hx) }
  · rw [Mapped.writeBack, if_neg hd]
    exact h

theorem MappedOk.writeBacks (h : MappedOk s) (m : Mapping) :
    MappedOk (m.foldl Mapped.writeBack s) ∧
      (m.foldl Mapped.writeBack s).dirtyAtExit = s.dirtyAtExit := by
  induction m generalizing s with
  | nil => exact ⟨h, rfl⟩
  | cons pg m ih =>
    obtain ⟨hok, hsame⟩ := ih h.writeBack
    exact ⟨hok, hsame.trans dirtyAtExit_writeBack⟩

/-- The mappings of one child change; no dirty page is lost. -/
theorem MappedOk.setMaps (h : MappedOk s) {ms : List Mapping}
    (hms : ∀ pg ∈ s.dirtyAtExit k, pg ∈ s.written k ∨ pg ∈ ms.flatten) :
    MappedOk (s.setMaps k ms) :=
  { h with
    pending := by
      intro c pg hpg
      simp only [Mapped.setMaps] at hpg ⊢
      by_cases heq : c = k
      · subst heq
        rw [update_self]
        exact hms pg hpg
      · rw [update_of_ne heq]
        exact h.pending c pg hpg }

/-- A child in user code has no history yet. -/
theorem MappedOk.of_user (h : MappedOk s) (huser : s.childAt k (· == .user) = true)
    {P : MappedPage → Prop} : ∀ pg ∈ s.dirtyAtExit k, P pg := by
  intro pg hpg
  obtain ⟨ch, hc, hpc⟩ := (Option.any_eq_true _ _).mp huser
  obtain ⟨ch', hc', hst⟩ := h.exited k (List.ne_nil_of_mem hpg)
  obtain rfl : ch = ch' := Option.some.inj (hc.symm.trans hc')
  exact absurd ((h.family.child k ch hc).status_of_user (eq_of_beq hpc)) hst

/-- The page at one place of a mapping table changes. -/
theorem mem_flatten_set {ms : List Mapping} {m : Mapping} {i j : Nat} {new x : MappedPage}
    (hm : ms[i]? = some m) (hpg : m[j]? = some pg) (hx : x ∈ ms.flatten) (hne : x ≠ pg) :
    x ∈ (ms.set i (m.set j new)).flatten := by
  obtain ⟨m', hm', hx⟩ := List.mem_flatten.mp hx
  obtain ⟨i', hi'⟩ := List.mem_iff_getElem?.mp hm'
  by_cases hi : i = i'
  · subst hi
    obtain rfl : m = m' := Option.some.inj (hm.symm.trans hi')
    obtain ⟨j', hj'⟩ := List.mem_iff_getElem?.mp hx
    have hj : j ≠ j' := by
      rintro rfl
      exact hne (Option.some.inj (hj'.symm.trans hpg))
    refine List.mem_flatten.mpr ⟨m.set j new, ?_, ?_⟩
    · exact List.mem_set (List.getElem?_eq_some_iff.mp hm).1 _
    · exact List.mem_of_getElem? (List.getElem?_set_ne hj ▸ hj')
  · exact List.mem_flatten.mpr
      ⟨m', List.mem_of_getElem? (List.getElem?_set_ne hi ▸ hi'), hx⟩

/-- The history of a child that does not leave stays. -/
theorem onExit_of_ne {a : FamilyStep} (h : a.leaver? ≠ some k) :
    (s.onExit a).dirtyAtExit k = s.dirtyAtExit k ∧ (s.onExit a).written k = s.written k := by
  rw [Mapped.onExit]
  split
  · rename_i c hc
    have hne : k ≠ c := by
      rintro rfl
      exact h hc
    exact ⟨update_of_ne hne .., update_of_ne hne ..⟩
  · exact ⟨rfl, rfl⟩

theorem onExit_self {a : FamilyStep} (h : a.leaver? = some k) :
    (s.onExit a).dirtyAtExit k = s.dirtyPages k ∧ (s.onExit a).written k = [] := by
  rw [Mapped.onExit, h]
  exact ⟨update_self .., update_self ..⟩

theorem onExit_kept {a : FamilyStep} :
    (s.onExit a).mmapTable = s.mmapTable ∧ (s.onExit a).files = s.files := by
  rw [Mapped.onExit]
  split <;> exact ⟨rfl, rfl⟩

/-- Where the parent passes the handshake, the condition is that no dirty page is
    left. -/
theorem clean_of_passes {ch : Child} (ha : passesClean s (.family .parent) = true)
    (hc : s.family.children k = some ch) (hp : Passes s.family k ch) : s.dirtyPages k = [] := by
  rcases hp with ⟨hpc, hp⟩ | ⟨hpc, hp⟩
  · simpa [passesClean, hpc, hc, hp, Mapped.clean] using ha
  · simpa [passesClean, hpc, hc, hp, Mapped.clean] using ha

/-- A step of the family: a child that leaves starts its history, and the parent
    passes the handshake only when nothing is pending. -/
theorem MappedOk.familyStep (h : MappedOk s) {a : FamilyStep} {f : Family}
    (ha : passesClean s (.family a) = true) (hf : s.family.next a = some f) :
    MappedOk { s.onExit a with family := f } where
  family := h.family.next hf
  exited c hne := by
    by_cases hc : a.leaver? = some c
    · exact (next_leaver hf hc).2
    · dsimp only at hne
      rw [(onExit_of_ne hc).1] at hne
      obtain ⟨ch, hch, hst⟩ := h.exited c hne
      exact h.family.status_kept hf hch hst
  dirty c pg hpg := by
    dsimp only at hpg
    by_cases hc : a.leaver? = some c
    · rw [(onExit_self hc).1] at hpg
      exact (List.mem_filter.mp hpg).2
    · rw [(onExit_of_ne hc).1] at hpg
      exact h.dirty c pg hpg
  pending c pg hpg := by
    dsimp only at hpg ⊢
    rw [onExit_kept.1]
    by_cases hc : a.leaver? = some c
    · rw [(onExit_self hc).1] at hpg
      exact Or.inr (List.mem_filter.mp hpg).1
    · rw [(onExit_of_ne hc).1] at hpg
      rw [(onExit_of_ne hc).2]
      exact h.pending c pg hpg
  content c file ofs pg hpg := by
    dsimp only at hpg ⊢
    rw [onExit_kept.2]
    by_cases hc : a.leaver? = some c
    · rw [(onExit_self hc).2] at hpg
      cases hpg
    · rw [(onExit_of_ne hc).2] at hpg
      exact h.content c file ofs pg hpg
  passed c ch hc hp pg hpg := by
    dsimp only at hpg ⊢
    obtain ⟨ch₀, hc₀, hbefore⟩ := h.family.passed_next hf hc hp
    rcases hbefore with hbefore | ⟨rfl, hpasses⟩
    · -- a child the parent is past has left before
      have hleft : a.leaver? ≠ some c := by
        intro hleaver
        obtain ⟨ch₁, hc₁, hpc⟩ := (next_leaver hf hleaver).1
        obtain rfl : ch₀ = ch₁ := Option.some.inj (hc₀.symm.trans hc₁)
        have hok := h.family.child c ch₀ hc₀
        exact hok.status_of_passed hbefore (hok.status_of_user hpc)
      rw [(onExit_of_ne hleft).1] at hpg
      rw [(onExit_of_ne hleft).2]
      exact h.passed c ch₀ hc₀ hbefore pg hpg
    · -- nothing is dirty, so the page is not pending
      refine (h.pending c pg hpg).resolve_right fun hmem => ?_
      have hdirty : pg ∈ s.dirtyPages c := List.mem_filter.mpr ⟨hmem, h.dirty c pg hpg⟩
      rw [clean_of_passes ha hc₀ hpasses] at hdirty
      cases hdirty

theorem MappedOk.next (h : MappedOk s) {a : MapStep} (ha : passesClean s a = true)
    (hn : s.next a = some s') : MappedOk s' := by
  cases a with
  | family a =>
    obtain ⟨f, hf, rfl⟩ := Option.map_eq_some_iff.mp hn
    exact h.familyStep ha hf
  | mmap c m =>
    simp only [Mapped.next] at hn
    split at hn
    · -- in user code, the child has no history to keep
      rename_i huser
      cases hn
      exact h.setMaps (h.of_user (Bool.and_eq_true _ _ ▸ huser : _ ∧ _).1)
    · cases hn
  | store c i j bytes =>
    simp only [Mapped.next] at hn
    split at hn
    · rename_i huser
      obtain ⟨m, -, hn⟩ := Option.bind_eq_some_iff.mp hn
      obtain ⟨pg, -, rfl⟩ := Option.map_eq_some_iff.mp hn
      exact h.setMaps (h.of_user huser)
    · cases hn
  | evict c i j =>
    obtain ⟨m, hm, hn⟩ := Option.bind_eq_some_iff.mp hn
    obtain ⟨pg, hpg, rfl⟩ := Option.map_eq_some_iff.mp hn
    refine h.writeBack.setMaps fun x hx => ?_
    rw [dirtyAtExit_writeBack] at hx
    -- the page that is evicted is written, the others stay where they are
    by_cases heq : x = pg
    · subst heq
      exact Or.inl (mem_written_writeBack (h.dirty c x hx))
    · exact (h.pending c x hx).imp written_writeBack fun hmem => mem_flatten_set hm hpg hmem heq
  | munmap c i =>
    simp only [Mapped.next] at hn
    split at hn
    · rename_i huser
      obtain ⟨m, -, rfl⟩ := Option.map_eq_some_iff.mp hn
      obtain ⟨hok, hsame⟩ := h.writeBacks m
      refine hok.setMaps ?_
      rw [hsame]
      exact h.of_user huser
    · cases hn
  | unmapPage c =>
    simp only [Mapped.next] at hn
    split at hn
    · rw [Mapped.unmapNext] at hn
      split at hn
      · cases hn
      · rename_i ms hms
        cases hn
        refine h.setMaps fun x hx => (h.pending c x hx).imp_right fun hmem => ?_
        rw [hms] at hmem
        exact hmem
      · rename_i pg pgs ms hms
        cases hn
        refine h.writeBack.setMaps fun x hx => ?_
        rw [dirtyAtExit_writeBack] at hx
        -- the page that leaves the table is written by this step
        rcases h.pending c x hx with hw | hmem
        · exact Or.inl (written_writeBack hw)
        · rw [hms, List.flatten_cons, List.cons_append, List.mem_cons] at hmem
          rcases hmem with rfl | hmem
          · exact Or.inl (mem_written_writeBack (h.dirty c x hx))
          · exact Or.inr hmem
    · cases hn

end

/-! ## What the parent sees -/

/-- The start of a child, as far as its user code. -/
def startChild (c : Nat) : List MapStep :=
  [.family (.exec c), .family .parent, .family .parent, .family (.loadReturns c true),
    .family (.child c), .family (.child c), .family .parent, .family .parent]

/-- The child leaves through `exit`, as far as `thread_exit`. -/
def exitChild (c : Nat) : List MapStep :=
  [.family (.exit c 0), .family (.child c), .family (.child c), .family (.child c)]

/-- The parent runs `process_wait` to its end. -/
def waitChild (c : Nat) : List MapStep :=
  [.family (.wait c), .family .parent, .family .parent, .family .parent, .family .parent,
    .family .parent]

def Mapped.fresh : Mapped :=
  ⟨Family.initial, fun _ => [], fun _ _ => [0], fun _ => [], fun _ => []⟩

end Pintos.Userprog
