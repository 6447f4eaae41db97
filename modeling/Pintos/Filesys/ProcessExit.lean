/-
  Pintos.Filesys.ProcessExit

  `process_exit` gives back every handle of a process if and only if the process
  has no descriptor of a directory: it closes `entry->file` of every descriptor,
  which is a null pointer for a directory.
-/

import Pintos.Filesys.HandleCounts

namespace Pintos.Filesys

open Function

open Base Store

variable {st : Store} {P : Process} {n : Sector}

/-- The inode will be given back by its last opener, or has been. -/
def Doomed (s : Store) (n : Sector) : Prop :=
  (s.inodes n).any (·.removed) = true ∨ n ∈ s.released

theorem Doomed.inodeClose {m : Sector} (h : Doomed st n) : Doomed (st.inodeClose m) n := by
  cases hi : st.inodes m with
  | none => simpa only [Store.inodeClose, hi] using h
  | some i =>
    simp only [Store.inodeClose, hi]
    rcases h with h | h
    · by_cases hm : n = m
      · subst hm
        rw [hi, Option.any_some] at h
        split
        · exact Or.inr (by simp)
        · exact Or.inl (by simpa [Store.setInode] using h)
      · split
        · exact Or.inl (by simpa [update_of_ne hm] using h)
        · exact Or.inl (by simpa [Store.setInode, update_of_ne hm] using h)
    · split
      · refine Or.inr ?_
        simp only
        split
        · exact List.mem_append_left _ h
        · exact h
      · exact Or.inr h

theorem Doomed.fileAllowWrite {f : File} {r : Store × File} (h : Doomed st n)
    (hr : st.fileAllowWrite f = some r) : Doomed r.1 n := by
  rw [Store.fileAllowWrite] at hr
  split at hr
  · obtain ⟨s₁, hs₁, rfl⟩ := Option.map_eq_some_iff.mp hr
    obtain ⟨i, hi, hs₁⟩ := Option.bind_eq_some_iff.mp hs₁
    split at hs₁
    · cases hs₁
      refine h.imp (fun h => ?_) id
      by_cases hm : n = f.inode
      · subst hm
        rw [hi] at h
        simpa [Store.setInode] using h
      · simpa [Store.setInode, update_of_ne hm] using h
    · cases hs₁
  · cases hr
    exact h

theorem Doomed.fileClose {f : Option File} {st' : Store} (h : Doomed st n)
    (hst' : st.fileClose f = some st') : Doomed st' n := by
  cases f with
  | none =>
    cases hst'
    exact h
  | some f =>
    obtain ⟨r, hr, rfl⟩ := Option.map_eq_some_iff.mp hst'
    exact (h.fileAllowWrite hr).inodeClose

theorem Doomed.foldlM {α : Type*} {g : Store → α → Option Store}
    (hg : ∀ s a s', Doomed s n → g s a = some s' → Doomed s' n) {l : List α} {st' : Store}
    (h : Doomed st n) (hl : l.foldlM g st = some st') : Doomed st' n := by
  induction l generalizing st with
  | nil =>
    cases hl
    exact h
  | cons a l ih =>
    rw [List.foldlM_cons] at hl
    obtain ⟨s₁, hs₁, hl⟩ := Option.bind_eq_some_iff.mp hl
    exact ih (hg st a s₁ h hs₁) hl

theorem Doomed.processExit {r : Store × Process} (h : Doomed st n)
    (hr : Filesys.processExit st P = some r) : Doomed r.1 n := by
  obtain ⟨s₁, hs₁, hr⟩ := Option.bind_eq_some_iff.mp hr
  obtain ⟨s₂, hs₂, hr⟩ := Option.bind_eq_some_iff.mp hr
  obtain ⟨s₃, hs₃, rfl⟩ := Option.map_eq_some_iff.mp hr
  have h₁ := h.foldlM (fun _ _ _ h => h.fileClose) hs₁
  have h₁' : Doomed (s₁.dirClose P.cwd) n := by
    cases hcwd : P.cwd with
    | none => exact h₁
    | some d => exact h₁.inodeClose
  have h₂ : Doomed s₂ n := by
    cases hexe : P.exe with
    | none =>
      rw [hexe] at hs₂
      cases hs₂
      exact h₁'
    | some f =>
      rw [hexe] at hs₂
      obtain ⟨r, hr, hs₂⟩ := Option.bind_eq_some_iff.mp hs₂
      exact (h₁'.fileAllowWrite hr).fileClose hs₂
  exact h₂.foldlM (fun _ _ _ h => h.fileClose) hs₃

theorem count_held (P : Process) (n : Sector) :
    P.held.count n = opening P.files n + P.dirs.count n := by
  rw [Process.held, List.count_append, List.count_eq_countP, List.countP_map]
  rfl

/-- Each inode loses as many openers as the process held handles on it. -/
def releasesAll (st : Store) (P : Process) (st' : Store) : Prop :=
  ∀ n, st'.openCnt n + P.held.count n = st.openCnt n

/-- `process_exit` gives back all handles exactly if the process has no open
    directory; then an inode that has been removed and that nobody else holds
    is given back. -/
theorem process_exit_releases {s : State} (h : handles.Reachable s) (P : Process)
    (hP : P ∈ s.procs) : ∃ st' P', processExit s.store P = some (st', P') ∧
      (releasesAll s.store P st' ↔ ∀ e ∈ P.fdTable, e.dir = none) ∧
      (releasesAll s.store P st' → ∀ n i, s.store.inodes n = some i → i.removed = true →
        P.held.count n = i.openCnt → st'.inodes n = none ∧ n ∈ st'.released) := by
  have hok := State.ok_of_reachable h
  obtain ⟨p, hp⟩ := List.mem_iff_getElem?.mp hP
  obtain ⟨fs, ds, hfs, hds, -⟩ := State.split_process hp
  obtain ⟨lost, hc⟩ := hok.counted
  have hc := hc.perm hfs.symm hds.symm
  obtain ⟨st', hst', hc'⟩ := processExit_counted hc (hok.procs P hP)
  have hopen : ∀ n, s.store.openCnt n = P.held.count n + (opening fs n + ds.count n + lost n) := by
    intro n
    rw [hc.opens n, count_held]
    simp only [opening, List.countP_append, List.count_append]
    omega
  refine ⟨st', _, hst', ⟨fun hall e he => ?_, fun hnone n => ?_⟩, fun hall n i hi hrem heq => ?_⟩
  · -- a directory among the descriptors would still be counted
    cases hd : e.dir with
    | none => rfl
    | some d =>
      have hall := hall d
      rw [hopen d, hc'.opens d] at hall
      have hpos : 0 < (P.fdTable.filterMap FdEntry.dir).count d :=
        List.count_pos_iff.mpr (List.mem_filterMap.mpr ⟨e, he, hd⟩)
      simp only at hall
      omega
  · have hnil : P.fdTable.filterMap FdEntry.dir = [] :=
      List.filterMap_eq_nil_iff.mpr hnone
    rw [hopen n, hc'.opens n, hnil]
    simp only [List.count_nil]
    omega
  · have hall := hall n
    rw [Store.openCnt, Store.openCnt, hi] at hall
    simp only [Option.map_some, Option.getD_some] at hall
    have hclosed : st'.inodes n = none := by
      cases hi' : st'.inodes n with
      | none => rfl
      | some j =>
        have hpos := hc'.present n j hi'
        rw [hi'] at hall
        simp only [Option.map_some, Option.getD_some] at hall
        omega
    have hdoomed : Doomed s.store n := Or.inl (by rw [hi]; exact hrem)
    refine ⟨hclosed, (hdoomed.processExit hst').resolve_left ?_⟩
    rw [hclosed]
    exact Bool.false_ne_true

/-- A process that has a file and the file of its program open, but no
    directory. -/
theorem process_exit_releases_files : ∃ s : State, handles.Reachable s ∧ ∃ P ∈ s.procs,
    ∃ st' P', processExit s.store P = some (st', P') ∧ P.held = [7, 9, 1] ∧
      (releasesAll s.store P st' ↔ ∀ e ∈ P.fdTable, e.dir = none) := by
  obtain ⟨s, hs, hp⟩ := System.reachable_of_run (S := handles) (s := State.fresh)
    (l := [.startProcess none true, .loadOpen 0 (some 7) true, .loadDeny 0, .loadDone 0 true,
      .open 0 9 false true true, .remove 9])
    (p := fun s => s.procs.any fun P => P.held == [7, 9, 1])
    ⟨fun _ => rfl, rfl, rfl, rfl⟩ (by decide)
  obtain ⟨P, hP, hheld⟩ := List.any_eq_true.mp hp
  obtain ⟨st', P', hexit, hiff, -⟩ := process_exit_releases hs P hP
  exact ⟨s, hs, P, hP, st', P', hexit, eq_of_beq hheld, hiff⟩

/-- A process opens a directory, which is then removed, and exits: the inode
    keeps an opener and is not given back. -/
theorem process_exit_leaks : ∃ s : State, handles.Reachable s ∧ ∃ P ∈ s.procs,
    ∃ r, processExit s.store P = some r ∧ P.held.count 9 = 1 ∧
      s.store.inodes 9 = some ⟨1, 0, true⟩ ∧ r.1.inodes 9 = some ⟨1, 0, true⟩ ∧
      r.1.released = [] := by
  obtain ⟨s, hs, hp⟩ := System.reachable_of_run (S := handles) (s := State.fresh)
    (l := [.startProcess none true, .loadOpen 0 (some 7) true, .loadDeny 0, .loadDone 0 true,
      .open 0 9 true true true, .remove 9])
    (p := fun s => s.procs.any fun P => (processExit s.store P).any fun r =>
      P.held.count 9 == 1 && s.store.inodes 9 == some ⟨1, 0, true⟩ &&
        r.1.inodes 9 == some ⟨1, 0, true⟩ && r.1.released == [])
    ⟨fun _ => rfl, rfl, rfl, rfl⟩ (by decide)
  obtain ⟨P, hP, hp⟩ := List.any_eq_true.mp hp
  obtain ⟨r, hr, hp⟩ := (Option.any_eq_true _ _).mp hp
  simp only [Bool.and_eq_true, beq_iff_eq] at hp
  obtain ⟨⟨⟨hcount, hbefore⟩, hafter⟩, hreleased⟩ := hp
  exact ⟨s, hs, P, hP, r, hr, hcount, hbefore, hafter, hreleased⟩

end Pintos.Filesys
