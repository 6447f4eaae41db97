/-
  Pintos.Filesys.HandleCounts

  The counters of an open inode against the handles on it: every operation of
  the system keeps `open_cnt` and `deny_write_cnt` equal to the number of
  handles and of file objects that deny writes, up to the handles that
  `process_exit` drops without a close.
-/

import Pintos.Filesys.Handles

namespace Pintos.Filesys

open Function

variable {c' d' : Sector → Nat} {r : Store × Process}

open Base

namespace Store

/-- `open_cnt`, 0 for an inode that is not open. -/
def openCnt (s : Store) (n : Sector) : Nat := ((s.inodes n).map Inode.openCnt).getD 0

def denyWriteCnt (s : Store) (n : Sector) : Nat := ((s.inodes n).map Inode.denyWriteCnt).getD 0

/-! ## The counters -/

/-- The counters have the values `c` and `d`, and an open inode has an opener. -/
structure Counts (s : Store) (c d : Sector → Nat) : Prop where
  opens : ∀ n, s.openCnt n = c n
  denies : ∀ n, s.denyWriteCnt n = d n
  present : ∀ n i, s.inodes n = some i → 0 < i.openCnt

variable {s : Store} {c d : Sector → Nat} {n : Sector}

theorem Counts.exists_inode (h : s.Counts c d) (hpos : 0 < c n) :
    ∃ i, s.inodes n = some i ∧ i.openCnt = c n ∧ i.denyWriteCnt = d n := by
  have hopen := h.opens n
  have hdeny := h.denies n
  cases hi : s.inodes n with
  | none =>
    rw [openCnt, hi] at hopen
    exact absurd hopen.symm (Nat.pos_iff_ne_zero.mp hpos)
  | some i =>
    rw [openCnt, hi] at hopen
    rw [denyWriteCnt, hi] at hdeny
    exact ⟨i, rfl, hopen, hdeny⟩

/-- One inode gets other counters. -/
theorem Counts.set (h : s.Counts c d) {s' : Store} {x : Option Inode}
    (hs : s'.inodes = update s.inodes n x) (hc : (x.map Inode.openCnt).getD 0 = c' n)
    (hd : (x.map Inode.denyWriteCnt).getD 0 = d' n) (hpos : ∀ i, x = some i → 0 < i.openCnt)
    (hco : ∀ m, m ≠ n → c' m = c m) (hdo : ∀ m, m ≠ n → d' m = d m) : s'.Counts c' d' := by
  refine ⟨fun m => ?_, fun m => ?_, fun m j hj => ?_⟩
  · by_cases hm : m = n
    · rw [openCnt, hs, hm, update_self, hc]
    · rw [openCnt, hs, update_of_ne hm, hco m hm]
      exact h.opens m
  · by_cases hm : m = n
    · rw [denyWriteCnt, hs, hm, update_self, hd]
    · rw [denyWriteCnt, hs, update_of_ne hm, hdo m hm]
      exact h.denies m
  · rw [hs] at hj
    by_cases hm : m = n
    · rw [hm, update_self] at hj
      exact hpos j hj
    · rw [update_of_ne hm] at hj
      exact h.present m j hj

theorem Counts.setInode (h : s.Counts c d) {i : Inode} (hc : i.openCnt = c' n)
    (hd : i.denyWriteCnt = d' n) (hpos : 0 < i.openCnt) (hco : ∀ m, m ≠ n → c' m = c m)
    (hdo : ∀ m, m ≠ n → d' m = d m) : (s.setInode n i).Counts c' d' :=
  h.set rfl hc hd (fun _ hj => by cases hj; exact hpos) hco hdo

theorem Counts.of_eq (h : s.Counts c d) (hc : c = c') (hd : d = d') :
    s.Counts c' d' := hc ▸ hd ▸ h

section

variable (h : s.Counts c d)

include h

theorem Counts.inodeOpen (hn : c' n = c n + 1)
    (ho : ∀ m, m ≠ n → c' m = c m) : (s.inodeOpen n).Counts c' d := by
  have hopen := h.opens n
  have hdeny := h.denies n
  rw [Store.inodeOpen]
  cases hi : s.inodes n with
  | none =>
    rw [openCnt, hi] at hopen
    rw [denyWriteCnt, hi] at hdeny
    exact h.setInode (by rw [hn, ← hopen]; rfl) hdeny Nat.one_pos ho fun _ _ => rfl
  | some i =>
    rw [openCnt, hi] at hopen
    rw [denyWriteCnt, hi] at hdeny
    simp only [Store.inodeReopen, hi]
    exact h.setInode (by rw [hn, ← hopen]; rfl) hdeny (Nat.succ_pos _) ho fun _ _ => rfl

/-- An inode with a handle is open. -/
theorem Counts.inodeReopen_eq (hpos : 0 < c n) :
    s.inodeReopen n = s.inodeOpen n := by
  obtain ⟨i, hi, -, -⟩ := h.exists_inode hpos
  simp only [Store.inodeOpen, hi]

theorem Counts.inodeClose (hn : c n = c' n + 1)
    (ho : ∀ m, m ≠ n → c' m = c m) (hd : d n ≤ c' n) : (s.inodeClose n).Counts c' d := by
  obtain ⟨i, hi, hopen, hdeny⟩ := h.exists_inode (n := n) (by omega)
  simp only [Store.inodeClose, hi]
  split
  · -- the last opener: no file object denies writes any more
    refine h.set (x := none) rfl ?_ ?_ (fun i hi => by cases hi) ho fun _ _ => rfl
    · show 0 = c' n
      omega
    · show 0 = d n
      omega
  · rename_i hmore
    have hself : i.openCnt - 1 = c' n := by omega
    exact h.setInode hself hdeny (Nat.pos_of_ne_zero hmore) ho fun _ _ => rfl

theorem Counts.inodeDenyWrite (hn : d' n = d n + 1)
    (ho : ∀ m, m ≠ n → d' m = d m) (hle : d' n ≤ c n) :
    ∃ s', s.inodeDenyWrite n = some s' ∧ s'.Counts c d' := by
  obtain ⟨i, hi, hopen, hdeny⟩ := h.exists_inode (n := n) (by omega)
  have hself : i.denyWriteCnt + 1 = d' n := by omega
  refine ⟨_, ?_, h.setInode (i := ⟨i.openCnt, i.denyWriteCnt + 1, i.removed⟩) hopen hself
    (h.present n i hi) (fun _ _ => rfl) ho⟩
  rw [Store.inodeDenyWrite, hi]
  exact if_pos (by omega)

theorem Counts.inodeAllowWrite (hn : d n = d' n + 1)
    (ho : ∀ m, m ≠ n → d' m = d m) (hle : d n ≤ c n) :
    ∃ s', s.inodeAllowWrite n = some s' ∧ s'.Counts c d' := by
  obtain ⟨i, hi, hopen, hdeny⟩ := h.exists_inode (n := n) (by omega)
  have hself : i.denyWriteCnt - 1 = d' n := by omega
  refine ⟨_, ?_, h.setInode (i := ⟨i.openCnt, i.denyWriteCnt - 1, i.removed⟩) hopen hself
    (h.present n i hi) (fun _ _ => rfl) ho⟩
  rw [Store.inodeAllowWrite, hi]
  exact if_pos (by omega)

theorem Counts.inodeRemove : (s.inodeRemove n).Counts c d := by
  cases hi : s.inodes n with
  | none => simpa only [Store.inodeRemove, hi] using h
  | some i =>
    have hopen := h.opens n
    have hdeny := h.denies n
    rw [openCnt, hi] at hopen
    rw [denyWriteCnt, hi] at hdeny
    simp only [Store.inodeRemove, hi]
    exact h.setInode hopen hdeny (h.present n i hi) (fun _ _ => rfl) fun _ _ => rfl

theorem Counts.inodeWriteAt {new : List UInt8} : (s.inodeWriteAt n new).Counts c d := by
  rw [Store.inodeWriteAt]
  split
  · split
    · exact h
    · exact ⟨h.opens, h.denies, h.present⟩
  · exact h

/-! ## The handles -/

end

/-- The file objects that deny writes to inode `n`. -/
def denying (files : List File) (n : Sector) : Nat :=
  files.countP fun f => f.inode == n && f.denyWrite

def opening (files : List File) (n : Sector) : Nat := files.countP fun f => f.inode == n

theorem denying_le_opening (files : List File) (n : Sector) : denying files n ≤ opening files n :=
  List.countP_mono_left fun _ _ h => (Bool.and_eq_true _ _ ▸ h : _ ∧ _).1

/-- The counters agree with the handles; `lost` counts the openers that nobody
    holds a handle for any more. -/
def Counted (s : Store) (files : List File) (dirs : List Sector) (lost : Sector → Nat) : Prop :=
  s.Counts (fun n => opening files n + dirs.count n + lost n) (denying files)

variable {files files' : List File} {dirs dirs' : List Sector} {lost : Sector → Nat} {f : File}

theorem Counted.perm (h : s.Counted files dirs lost) (hf : files'.Perm files)
    (hd : dirs'.Perm dirs) : s.Counted files' dirs' lost := by
  refine h.of_eq (funext fun n => ?_) (funext fun n => ?_)
  · rw [opening, opening, hf.countP_eq, hd.count_eq]
  · rw [denying, denying, hf.countP_eq]

theorem opening_cons (f : File) (files : List File) (n : Sector) :
    opening (f :: files) n = opening files n + if f.inode = n then 1 else 0 := by
  simp [opening, List.countP_cons]

theorem denying_cons (f : File) (files : List File) (n : Sector) :
    denying (f :: files) n =
      denying files n + if f.inode = n ∧ f.denyWrite = true then 1 else 0 := by
  simp [denying, List.countP_cons]

theorem Counted.openFile (h : s.Counted files dirs lost) (n : Sector) :
    (s.inodeOpen n).Counted (⟨n, false⟩ :: files) dirs lost := by
  have hd : denying (⟨n, false⟩ :: files) = denying files := by
    funext m
    rw [denying_cons]
    simp
  rw [Counted, hd]
  refine Counts.inodeOpen h ?_ fun m hm => ?_
  · simp only [opening_cons, if_true]
    omega
  · simp only [opening_cons, if_neg (Ne.symm hm)]
    omega

theorem Counted.openDir (h : s.Counted files dirs lost) (n : Sector) :
    (s.inodeOpen n).Counted files (n :: dirs) lost := by
  refine Counts.inodeOpen h ?_ fun m hm => ?_
  · simp only [List.count_cons_self]
    omega
  · simp only [List.count_cons_of_ne (Ne.symm hm)]

theorem Counted.closeDir (h : s.Counted files (n :: dirs) lost) :
    (s.inodeClose n).Counted files dirs lost := by
  have hle := denying_le_opening files n
  refine Counts.inodeClose h ?_ (fun m hm => ?_) ?_
  · simp only [List.count_cons_self]
    omega
  · simp only [List.count_cons_of_ne (Ne.symm hm)]
  · show denying files n ≤ opening files n + dirs.count n + lost n
    omega

/-- A handle that is dropped without a close. -/
theorem Counted.loseDir (h : s.Counted files (n :: dirs) lost) :
    s.Counted files dirs (fun m => lost m + if m = n then 1 else 0) := by
  refine h.of_eq (funext fun m => ?_) rfl
  by_cases hm : m = n
  · subst hm
    simp only [List.count_cons_self, if_true]
    omega
  · simp only [List.count_cons_of_ne (Ne.symm hm), if_neg hm]
    omega

theorem Counted.fileDenyWrite (h : s.Counted (f :: files) dirs lost) :
    ∃ s', s.fileDenyWrite f = some (s', { f with denyWrite := true }) ∧
      s'.Counted ({ f with denyWrite := true } :: files) dirs lost := by
  rw [Store.fileDenyWrite]
  cases hf : f.denyWrite with
  | true =>
    have heq : { f with denyWrite := true } = f := by rw [← hf]
    rw [heq]
    exact ⟨s, rfl, h⟩
  | false =>
    have hle := denying_le_opening files f.inode
    have hself : denying ({ f with denyWrite := true } :: files) f.inode =
        denying (f :: files) f.inode + 1 := by simp [denying_cons, hf]
    have hothers : ∀ m, m ≠ f.inode → denying ({ f with denyWrite := true } :: files) m =
        denying (f :: files) m := fun m hm => by simp [denying_cons, Ne.symm hm]
    obtain ⟨s', hs', hc⟩ := Counts.inodeDenyWrite h hself hothers
      (by simp only [denying_cons, opening_cons, if_true, and_self]; omega)
    refine ⟨s', by rw [hs']; rfl, ?_⟩
    exact hc.of_eq (funext fun m => by simp only [opening_cons]) rfl

theorem Counted.fileAllowWrite (h : s.Counted (f :: files) dirs lost) :
    ∃ s', s.fileAllowWrite f = some (s', { f with denyWrite := false }) ∧
      s'.Counted ({ f with denyWrite := false } :: files) dirs lost := by
  rw [Store.fileAllowWrite]
  cases hf : f.denyWrite with
  | false =>
    have heq : { f with denyWrite := false } = f := by rw [← hf]
    rw [heq]
    exact ⟨s, rfl, h⟩
  | true =>
    have hle := denying_le_opening files f.inode
    have hself : denying (f :: files) f.inode =
        denying ({ f with denyWrite := false } :: files) f.inode + 1 := by simp [denying_cons, hf]
    have hothers : ∀ m, m ≠ f.inode → denying ({ f with denyWrite := false } :: files) m =
        denying (f :: files) m := fun m hm => by simp [denying_cons, Ne.symm hm]
    obtain ⟨s', hs', hc⟩ := Counts.inodeAllowWrite h hself hothers
      (by simp only [denying_cons, opening_cons, hf, if_true, and_self]; omega)
    refine ⟨s', by rw [hs']; rfl, ?_⟩
    exact hc.of_eq (funext fun m => by simp only [opening_cons]) rfl

/-- A file object that does not deny writes is dropped with its opener. -/
theorem Counted.closeFile (h : s.Counted (⟨n, false⟩ :: files) dirs lost) :
    (s.inodeClose n).Counted files dirs lost := by
  have hle := denying_le_opening files n
  have hd : denying (⟨n, false⟩ :: files) = denying files := by
    funext m
    rw [denying_cons]
    simp
  rw [Counted, hd] at h
  refine Counts.inodeClose h ?_ (fun m hm => ?_) ?_
  · simp only [opening_cons, if_true]
    omega
  · simp only [opening_cons, if_neg (Ne.symm hm)]
    omega
  · show denying files n ≤ opening files n + dirs.count n + lost n
    omega

theorem Counted.fileClose (h : s.Counted (f :: files) dirs lost) :
    ∃ s', s.fileClose (some f) = some s' ∧ s'.Counted files dirs lost := by
  obtain ⟨s', hs', hc⟩ := h.fileAllowWrite
  refine ⟨s'.inodeClose f.inode, ?_, hc.closeFile⟩
  rw [Store.fileClose, hs']
  rfl

theorem pos_of_mem (hf : f ∈ files) :
    0 < opening files f.inode + dirs.count f.inode + lost f.inode := by
  have hpos : 0 < opening files f.inode :=
    List.countP_pos_iff.mpr ⟨f, hf, beq_self_eq_true _⟩
  omega

/-- `file_open` on an inode that has just been opened. -/
theorem Counted.fileOpen (h : s.Counted files dirs lost) (n : Sector) (ok : Bool) :
    ((s.inodeOpen n).fileOpen n ok).1.Counted
      (((s.inodeOpen n).fileOpen n ok).2.toList ++ files) dirs lost := by
  cases ok with
  | true => exact h.openFile n
  | false => exact (h.openFile n).closeFile

theorem Counted.fileReopen (h : s.Counted files dirs lost) (hf : f ∈ files) (ok : Bool) :
    (s.fileReopen f ok).1.Counted ((s.fileReopen f ok).2.toList ++ files) dirs lost := by
  rw [Store.fileReopen, Counts.inodeReopen_eq h (pos_of_mem hf)]
  exact h.fileOpen f.inode ok

theorem Counted.dirOpen (h : s.Counted files dirs lost) (n : Sector) (ok : Bool) :
    ((s.inodeOpen n).dirOpen n ok).1.Counted files
      (((s.inodeOpen n).dirOpen n ok).2.toList ++ dirs) lost := by
  cases ok with
  | true => exact h.openDir n
  | false => exact (h.openDir n).closeDir

theorem Counted.dirClose {dir : Option Sector} (h : s.Counted files (dir.toList ++ dirs) lost) :
    (s.dirClose dir).Counted files dirs lost := by
  cases dir with
  | none => exact h
  | some d => exact h.closeDir

theorem Counted.closeExe {exe : Option File} (h : s.Counted (exe.toList ++ files) dirs lost) :
    ∃ s', closeExe s exe = some s' ∧ s'.Counted files dirs lost := by
  cases exe with
  | none => exact ⟨s, rfl, h⟩
  | some f =>
    obtain ⟨s₁, hs₁, h₁⟩ := Counted.fileAllowWrite h
    obtain ⟨s₂, hs₂, h₂⟩ := h₁.fileClose
    refine ⟨s₂, ?_, h₂⟩
    rw [Filesys.closeExe, hs₁]
    exact hs₂

theorem Counted.foldlM_fileClose {l : List File} (h : s.Counted (l ++ files) dirs lost) :
    ∃ s', l.foldlM (fun (s : Store) f => s.fileClose (some f)) s = some s' ∧
      s'.Counted files dirs lost := by
  induction l generalizing s with
  | nil => exact ⟨s, rfl, h⟩
  | cons f l ih =>
    obtain ⟨s₁, hs₁, h₁⟩ := Counted.fileClose h
    obtain ⟨s₂, hs₂, h₂⟩ := ih h₁
    refine ⟨s₂, ?_, h₂⟩
    rw [List.foldlM_cons, hs₁]
    exact hs₂

end Store

open Store

/-! ## The handles of a process -/

namespace Process

/-- The file objects of a process. -/
def files (P : Process) : List File :=
  P.exe.toList ++ (P.fdTable.filterMap FdEntry.file ++ P.mmapTable.map Prod.snd)

/-- The inodes of its directory objects. -/
def dirs (P : Process) : List Sector := P.cwd.toList ++ P.fdTable.filterMap FdEntry.dir

/-- The inodes it holds handles on. -/
def held (P : Process) : List Sector := P.files.map File.inode ++ P.dirs

/-- The executable is open, and writes to it denied, in the stages that say so;
    a descriptor has one handle. -/
structure Ok (P : Process) : Prop where
  started : P.stage = .started → P.exe = none
  opened : P.stage = .opened → P.exe.isSome
  denied : P.stage = .denied ∨ P.stage = .running → ∃ f, P.exe = some f ∧ f.denyWrite = true
  entries : ∀ e ∈ P.fdTable, e.file = none ∨ e.dir = none

end Process

variable {st : Store} {P : Process} {fs : List File} {ds : List Sector} {lost : Sector → Nat}

/-- What a step of a process leaves behind. -/
def Settled (r : Store × Process) (fs : List File) (ds : List Sector) : Prop :=
  r.2.Ok ∧ ∃ lost, r.1.Counted (r.2.files ++ fs) (r.2.dirs ++ ds) lost

theorem startProcess_settled (h : st.Counted fs ds lost) {parentCwd : Option Sector}
    (hcwd : ∀ n, parentCwd = some n → n ∈ ds) (ok : Bool) :
    Settled (startProcess st parentCwd ok) fs ds := by
  refine ⟨⟨fun _ => rfl, nofun, nofun, nofun⟩, lost, ?_⟩
  cases parentCwd with
  | none => exact (h.dirOpen rootDirSector ok).perm (List.Perm.refl _) (by simp [Process.dirs, startProcess])
  | some n =>
    have hpos : 0 < opening fs n + ds.count n + lost n := by
      have := List.count_pos_iff.mpr (hcwd n rfl)
      omega
    simp only [startProcess, Counts.inodeReopen_eq h hpos]
    exact (h.dirOpen n ok).perm (List.Perm.refl _) (by simp [Process.dirs])

section

variable (h : st.Counted (P.files ++ fs) (P.dirs ++ ds) lost) (hP : P.Ok)

include h hP

theorem loadOpen_settled (hstage : P.stage = .started) (target : Option Sector) (ok : Bool) :
    Settled (loadOpen st P target ok) fs ds := by
  have hexe := hP.started hstage
  have hfailed : ({ P with stage := .failed } : Process).Ok := ⟨nofun, nofun, by simp, hP.entries⟩
  cases target with
  | none => exact ⟨hfailed, lost, h⟩
  | some n =>
    have hopen := h.fileOpen n ok
    cases ok with
    | false => exact ⟨hfailed, lost, hopen⟩
    | true =>
      refine ⟨⟨nofun, fun _ => rfl, by simp [loadOpen, Store.fileOpen], hP.entries⟩, lost, ?_⟩
      refine hopen.perm ?_ (List.Perm.refl _)
      simp [Process.files, loadOpen, Store.fileOpen, hexe]

theorem loadDeny_settled (hr : loadDeny st P = some r) : Settled r fs ds := by
  cases hexe : P.exe with
  | none =>
    rw [loadDeny, hexe] at hr
    cases hr
  | some f =>
    simp only [Process.files, hexe, Option.toList_some, List.cons_append] at h
    obtain ⟨st', hst', hc⟩ := Counted.fileDenyWrite h
    rw [loadDeny, hexe, Option.bind_some, hst'] at hr
    cases hr
    exact ⟨⟨nofun, nofun, fun _ => ⟨_, rfl, rfl⟩, hP.entries⟩, lost, hc⟩

theorem loadDone_settled (hstage : P.stage = .denied) {success : Bool}
    (hr : loadDone st P success = some r) : Settled r fs ds := by
  cases success with
  | true =>
    cases hr
    exact ⟨⟨nofun, nofun, fun _ => hP.denied (Or.inl hstage), hP.entries⟩, lost, h⟩
  | false =>
    rw [Process.files, List.append_assoc] at h
    obtain ⟨st', hst', hc⟩ := Counted.closeExe h
    rw [loadDone, if_neg (by decide), hst'] at hr
    cases hr
    exact ⟨⟨nofun, nofun, by simp, hP.entries⟩, lost, hc⟩

end

/-- Descriptors of directories are dropped without a close. -/
theorem foldlM_fdTable {l : List FdEntry} (hl : ∀ e ∈ l, e.file = none ∨ e.dir = none)
    (h : st.Counted (l.filterMap FdEntry.file ++ fs) (l.filterMap FdEntry.dir ++ ds) lost) :
    ∃ st', l.foldlM (fun (s : Store) e => s.fileClose e.file) st = some st' ∧
      st'.Counted fs ds (fun n => lost n + (l.filterMap FdEntry.dir).count n) := by
  induction l generalizing st lost with
  | nil => exact ⟨st, rfl, h⟩
  | cons e l ih =>
    have hl' := fun e he => hl e (List.mem_cons_of_mem _ he)
    cases hfile : e.file with
    | some f =>
      have hdir : e.dir = none := (hl e List.mem_cons_self).resolve_left (by simp [hfile])
      simp only [List.filterMap_cons, hfile, hdir] at h
      obtain ⟨st₁, hst₁, h₁⟩ := Counted.fileClose h
      obtain ⟨st₂, hst₂, h₂⟩ := ih hl' h₁
      refine ⟨st₂, ?_, ?_⟩
      · rw [List.foldlM_cons, hfile, hst₁]
        exact hst₂
      · simpa only [List.filterMap_cons, hdir] using h₂
    | none =>
      cases hdir : e.dir with
      | none =>
        simp only [List.filterMap_cons, hfile, hdir] at h ⊢
        obtain ⟨st₂, hst₂, h₂⟩ := ih hl' h
        refine ⟨st₂, ?_, h₂⟩
        rw [List.foldlM_cons, hfile]
        exact hst₂
      | some d =>
        simp only [List.filterMap_cons, hfile, hdir, List.cons_append] at h ⊢
        obtain ⟨st₂, hst₂, h₂⟩ := ih hl' h.loseDir
        refine ⟨st₂, ?_, h₂.of_eq (funext fun n => ?_) rfl⟩
        · rw [List.foldlM_cons, hfile]
          exact hst₂
        · simp only [List.count_cons, beq_iff_eq, eq_comm (a := d)]
          omega

/-- `process_exit` fails no assertion; it loses the handles of the descriptors
    of directories. -/
theorem processExit_counted (h : st.Counted (P.files ++ fs) (P.dirs ++ ds) lost) (hP : P.Ok) :
    ∃ st', processExit st P = some (st', { P with
        stage := .exited, cwd := none, exe := none, fdTable := [], mmapTable := [] }) ∧
      st'.Counted fs ds (fun n => lost n + (P.fdTable.filterMap FdEntry.dir).count n) := by
  have hmaps : st.Counted (P.mmapTable.map Prod.snd ++
      (P.exe.toList ++ (P.fdTable.filterMap FdEntry.file ++ fs)))
      (P.cwd.toList ++ (P.fdTable.filterMap FdEntry.dir ++ ds)) lost := by
    refine h.perm ?_ ?_
    · rw [List.perm_iff_count]
      intro f
      simp only [Process.files, List.count_append]
      omega
    · rw [Process.dirs, List.append_assoc]
  obtain ⟨st₁, hst₁, h₁⟩ := hmaps.foldlM_fileClose
  obtain ⟨st₂, hst₂, h₂⟩ := h₁.dirClose.closeExe
  obtain ⟨st₃, hst₃, h₃⟩ := foldlM_fdTable hP.entries h₂
  refine ⟨st₃, ?_, h₃⟩
  rw [List.foldlM_map] at hst₁
  rw [processExit, hst₁, Option.bind_some, hst₂, Option.bind_some, hst₃]
  rfl

theorem processExit_settled (h : st.Counted (P.files ++ fs) (P.dirs ++ ds) lost) (hP : P.Ok) (hr : processExit st P = some r) : Settled r fs ds := by
  obtain ⟨st', hst', hc⟩ := processExit_counted h hP
  rw [hst'] at hr
  cases hr
  exact ⟨⟨nofun, nofun, by simp, nofun⟩, _, hc⟩

theorem fdAlloc_ok (hP : P.Ok) {file : Option File} {dir : Option Sector}
    (hone : file = none ∨ dir = none) : (P.fdAlloc file dir).Ok := by
  refine ⟨hP.started, hP.opened, hP.denied, fun e he => ?_⟩
  rcases List.mem_append.mp he with he | he
  · exact hP.entries e he
  · rw [List.mem_singleton.mp he]
    exact hone

section

variable (h : st.Counted (P.files ++ fs) (P.dirs ++ ds) lost) (hP : P.Ok)

include h hP

theorem sysOpen_settled {n : Sector} {isDir ok okFd : Bool}
    (hr : sysOpen st P n isDir ok okFd = some r) : Settled r fs ds := by
  simp only [sysOpen] at hr
  split at hr
  · cases hr
    exact ⟨hP, lost, (h.openDir n).closeDir⟩
  split at hr
  · have hdir := h.openDir n
    cases ok with
    | false =>
      cases hr
      exact ⟨hP, lost, hdir.closeDir⟩
    | true =>
      cases okFd with
      | false =>
        cases hr
        exact ⟨hP, lost, hdir.closeDir⟩
      | true =>
        cases hr
        refine ⟨fdAlloc_ok hP (Or.inl rfl), lost, hdir.perm ?_ ?_⟩
        · simp [Process.files, Process.fdAlloc]
        · rw [List.perm_iff_count]
          intro m
          simp [Process.dirs, Process.fdAlloc, List.count_cons]
          omega
  · have hfile := h.openFile n
    cases ok with
    | false =>
      cases hr
      exact ⟨hP, lost, hfile.closeFile⟩
    | true =>
      cases okFd with
      | false =>
        obtain ⟨st', hst', hc⟩ := hfile.fileClose
        simp only [Store.fileOpen, if_true, Bool.false_eq_true, if_false] at hr
        rw [hst'] at hr
        cases hr
        exact ⟨hP, lost, hc⟩
      | true =>
        cases hr
        refine ⟨fdAlloc_ok hP (Or.inr rfl), lost, hfile.perm ?_ ?_⟩
        · rw [List.perm_iff_count]
          intro g
          simp [Process.files, Process.fdAlloc, List.count_cons]
          omega
        · simp [Process.dirs, Process.fdAlloc]

theorem fdClose_settled {e : FdEntry} (he : e ∈ P.fdTable) (hr : fdClose st P e = some r) :
    Settled r fs ds := by
  have hperm := List.perm_cons_erase he
  have hok : ({ P with fdTable := P.fdTable.erase e } : Process).Ok :=
    ⟨hP.started, hP.opened, hP.denied, fun e' he' => hP.entries e' (List.mem_of_mem_erase he')⟩
  have hfiles := hperm.filterMap FdEntry.file
  have hdirs := hperm.filterMap FdEntry.dir
  simp only [fdClose] at hr
  split at hr
  · rename_i d hdir
    have hfile : e.file = none := (hP.entries e he).resolve_right (by simp [hdir])
    simp only [List.filterMap_cons, hfile, hdir] at hfiles hdirs
    cases hr
    refine ⟨hok, lost, Counted.closeDir (h.perm ?_ ?_)⟩
    · simpa [Process.files] using (hfiles.symm.append_right _).append_left _
    · rw [List.perm_iff_count]
      intro m
      have := hdirs.count_eq m
      simp only [Process.dirs, List.count_append, List.count_cons] at this ⊢
      omega
  · rename_i hdir
    cases hfile : e.file with
    | none =>
      simp only [List.filterMap_cons, hfile, hdir] at hfiles hdirs
      rw [hfile] at hr
      cases hr
      refine ⟨hok, lost, h.perm ?_ ?_⟩
      · simpa [Process.files] using (hfiles.symm.append_right _).append_left _
      · simpa [Process.dirs] using (hdirs.symm.append_right _).append_left _
    | some f =>
      simp only [List.filterMap_cons, hfile, hdir] at hfiles hdirs
      have hc : st.Counted (f :: ((⟨P.stage, P.cwd, P.exe, P.fdTable.erase e, P.nextFd,
          P.mmapTable, P.nextMapid⟩ : Process).files ++ fs))
          ((⟨P.stage, P.cwd, P.exe, P.fdTable.erase e, P.nextFd, P.mmapTable,
            P.nextMapid⟩ : Process).dirs ++ ds) lost := by
        refine h.perm ?_ ?_
        · rw [List.perm_iff_count]
          intro g
          have := hfiles.count_eq g
          simp only [Process.files, List.count_append, List.count_cons] at this ⊢
          omega
        · simpa [Process.dirs] using (hdirs.symm.append_right _).append_left _
      obtain ⟨st', hst', hc'⟩ := hc.fileClose
      rw [hfile, hst'] at hr
      cases hr
      exact ⟨hok, lost, hc'⟩

theorem mmapFile_settled {f : File} (hf : f ∈ P.files) {ok okMap : Bool}
    (hr : mmapFile st P f ok okMap = some r) : Settled r fs ds := by
  have hopen := h.fileReopen (List.mem_append_left fs hf) ok
  rw [mmapFile] at hr
  cases ok with
  | false =>
    cases hr
    exact ⟨hP, lost, hopen⟩
  | true =>
    cases okMap with
    | true =>
      cases hr
      refine ⟨⟨hP.started, hP.opened, hP.denied, hP.entries⟩, lost, hopen.perm ?_ ?_⟩
      · rw [List.perm_iff_count]
        intro g
        simp [Process.files, Store.fileReopen, Store.fileOpen, List.count_cons]
        omega
      · exact List.Perm.refl _
    | false =>
      obtain ⟨st', hst', hc⟩ := Counted.fileClose hopen
      simp only [Store.fileReopen, Store.fileOpen, if_true, Bool.false_eq_true, if_false] at hr hst'
      rw [hst'] at hr
      cases hr
      exact ⟨⟨hP.started, hP.opened, hP.denied, hP.entries⟩, lost, hc⟩

theorem munmapFile_settled {m : Nat × File} (hm : m ∈ P.mmapTable)
    (hr : munmapFile st P m = some r) : Settled r fs ds := by
  have hperm := (List.perm_cons_erase hm).map Prod.snd
  have hc : st.Counted (m.2 :: ((⟨P.stage, P.cwd, P.exe, P.fdTable, P.nextFd, P.mmapTable.erase m,
      P.nextMapid⟩ : Process).files ++ fs)) (P.dirs ++ ds) lost := by
    refine h.perm ?_ (List.Perm.refl _)
    rw [List.perm_iff_count]
    intro g
    have := hperm.count_eq g
    simp only [Process.files, List.map_cons, List.count_append, List.count_cons] at this ⊢
    omega
  obtain ⟨st', hst', hc'⟩ := hc.fileClose
  rw [munmapFile, hst'] at hr
  cases hr
  exact ⟨⟨hP.started, hP.opened, hP.denied, hP.entries⟩, lost, hc'⟩

theorem sysChdir_settled (n : Sector) (ok : Bool) : Settled (sysChdir st P n ok) fs ds := by
  have hopen := h.openDir n
  cases ok with
  | false => exact ⟨hP, lost, hopen.closeDir⟩
  | true =>
    refine ⟨⟨hP.started, hP.opened, hP.denied, hP.entries⟩, lost, ?_⟩
    refine Counted.dirClose (hopen.perm (List.Perm.refl _) ?_)
    rw [List.perm_iff_count]
    intro m
    simp only [Process.dirs, sysChdir, Store.dirOpen, if_true, Option.toList_some,
      List.count_append, List.count_cons, List.count_nil, List.cons_append]
    omega

end

/-! ## The system -/

namespace State

/-- All file objects. -/
def allFiles (s : State) : List File := s.kernel ++ s.procs.flatMap Process.files

/-- The inodes of all directory objects. -/
def allDirs (s : State) : List Sector := s.procs.flatMap Process.dirs

structure Ok (s : State) : Prop where
  procs : ∀ P ∈ s.procs, P.Ok
  counted : ∃ lost, s.store.Counted s.allFiles s.allDirs lost

variable {s s' : State}

/-- What one element of a list contributes, and the rest. -/
theorem flatMap_set_perm {α β : Type*} {g : α → List β} {a : α} (l : List α) {p : Nat}
    (h : l[p]? = some a) : ∃ r, (l.flatMap g).Perm (g a ++ r) ∧
      ∀ b, ((l.set p b).flatMap g).Perm (g b ++ r) := by
  induction l generalizing p with
  | nil => cases h
  | cons x l ih =>
    cases p with
    | zero =>
      cases h
      exact ⟨l.flatMap g, List.Perm.refl _, fun b => List.Perm.refl _⟩
    | succ p =>
      obtain ⟨r, hl, hset⟩ := ih h
      refine ⟨g x ++ r, ?_, fun b => ?_⟩
      · exact (hl.append_left (g x)).trans (List.perm_append_comm_assoc ..)
      · exact ((hset b).append_left (g x)).trans (List.perm_append_comm_assoc ..)

/-- The handles of one process and those of the rest. -/
theorem split_process {p : Nat} (hP : s.procs[p]? = some P) :
    ∃ fs ds, s.allFiles.Perm (P.files ++ fs) ∧ s.allDirs.Perm (P.dirs ++ ds) ∧
      ∀ P', (s.kernel ++ (s.procs.set p P').flatMap Process.files).Perm (P'.files ++ fs) ∧
        ((s.procs.set p P').flatMap Process.dirs).Perm (P'.dirs ++ ds) := by
  obtain ⟨fs, hfs, hfs'⟩ := flatMap_set_perm (g := Process.files) s.procs hP
  obtain ⟨ds, hds, hds'⟩ := flatMap_set_perm (g := Process.dirs) s.procs hP
  refine ⟨s.kernel ++ fs, ds, ?_, hds, fun P' => ⟨?_, hds' P'⟩⟩
  · exact (hfs.append_left s.kernel).trans (List.perm_append_comm_assoc ..)
  · exact ((hfs' P').append_left s.kernel).trans (List.perm_append_comm_assoc ..)

theorem Ok.onProcess (h : s.Ok) {p : Nat} {stage : Stage → Bool}
    {f : Process → Option (Store × Process)} (hs' : s.onProcess p stage f = some s')
    (hf : ∀ P fs ds lost r, P.Ok → stage P.stage = true →
      s.store.Counted (P.files ++ fs) (P.dirs ++ ds) lost → f P = some r → Settled r fs ds) : s'.Ok := by
  obtain ⟨P, hP, hs'⟩ := Option.bind_eq_some_iff.mp hs'
  split at hs'
  · rename_i hstage
    obtain ⟨r, hr, rfl⟩ := Option.map_eq_some_iff.mp hs'
    obtain ⟨fs, ds, hfs, hds, hset⟩ := split_process hP
    obtain ⟨lost, hc⟩ := h.counted
    have hmem := List.mem_of_getElem? hP
    obtain ⟨hok, lost', hc'⟩ := hf P fs ds lost r (h.procs P hmem) hstage
      (hc.perm hfs.symm hds.symm) hr
    refine ⟨fun Q hQ => ?_, lost', hc'.perm (hset r.2).1 (hset r.2).2⟩
    rcases List.mem_or_eq_of_mem_set hQ with hQ | rfl
    · exact h.procs Q hQ
    · exact hok
  · cases hs'

theorem Ok.onKernel (h : s.Ok) {f : File} {g : Option (Store × List File)}
    (hs' : s.onKernel f g = some s')
    (hg : ∀ fs ds lost r, s.store.Counted (f :: fs) ds lost → g = some r →
      ∃ lost, r.1.Counted (r.2 ++ fs) ds lost) : s'.Ok := by
  rw [State.onKernel] at hs'
  split at hs'
  · rename_i hmem
    obtain ⟨r, hr, rfl⟩ := Option.map_eq_some_iff.mp hs'
    obtain ⟨lost, hc⟩ := h.counted
    have hperm := (List.perm_cons_erase hmem).append_right (s.procs.flatMap Process.files)
    obtain ⟨lost', hc'⟩ := hg _ _ lost r (hc.perm hperm.symm (List.Perm.refl _)) hr
    refine ⟨h.procs, lost', hc'.perm ?_ (List.Perm.refl _)⟩
    show ((r.2 ++ s.kernel.erase f) ++ s.procs.flatMap Process.files).Perm _
    rw [List.append_assoc]
    rfl
  · cases hs'

/-- Every step keeps the counters right. -/
theorem Ok.next (h : s.Ok) {op : Op} (hs' : s.next op = some s') : s'.Ok := by
  cases op with
  | fileOpen n ok =>
    obtain ⟨lost, hc⟩ := h.counted
    cases hs'
    refine ⟨h.procs, lost, (hc.fileOpen n ok).perm ?_ (List.Perm.refl _)⟩
    rw [allFiles, allFiles, List.append_assoc]
  | fileReopen f ok =>
    refine h.onKernel hs' fun fs ds lost r hc hr => ⟨lost, ?_⟩
    cases hr
    refine (hc.fileReopen List.mem_cons_self ok).perm ?_ (List.Perm.refl _)
    rw [List.append_assoc, List.singleton_append]
  | fileDenyWrite f =>
    refine h.onKernel hs' fun fs ds lost r hc hr => ⟨lost, ?_⟩
    obtain ⟨st, hst, hc'⟩ := hc.fileDenyWrite
    rw [hst] at hr
    cases hr
    exact hc'
  | fileAllowWrite f =>
    refine h.onKernel hs' fun fs ds lost r hc hr => ⟨lost, ?_⟩
    obtain ⟨st, hst, hc'⟩ := hc.fileAllowWrite
    rw [hst] at hr
    cases hr
    exact hc'
  | fileClose f =>
    refine h.onKernel hs' fun fs ds lost r hc hr => ⟨lost, ?_⟩
    obtain ⟨st, hst, hc'⟩ := hc.fileClose
    rw [hst] at hr
    cases hr
    exact hc'
  | fileWrite f new =>
    refine h.onKernel hs' fun fs ds lost r hc hr => ⟨lost, ?_⟩
    cases hr
    exact Counts.inodeWriteAt hc
  | startProcess parent ok =>
    obtain ⟨lost, hc⟩ := h.counted
    cases hs'
    have hcwd : ∀ n, (parent.bind fun p => (s.procs[p]?).bind Process.cwd) = some n →
        n ∈ s.allDirs := by
      intro n hn
      obtain ⟨p, -, hn⟩ := Option.bind_eq_some_iff.mp hn
      obtain ⟨P, hP, hn⟩ := Option.bind_eq_some_iff.mp hn
      refine List.mem_flatMap.mpr ⟨P, List.mem_of_getElem? hP, ?_⟩
      rw [Process.dirs, hn]
      exact List.mem_append_left _ (List.mem_singleton_self n)
    obtain ⟨hok, lost', hc'⟩ := startProcess_settled hc hcwd ok
    refine ⟨fun Q hQ => ?_, lost', hc'.perm ?_ ?_⟩
    · rcases List.mem_append.mp hQ with hQ | hQ
      · exact h.procs Q hQ
      · rw [List.mem_singleton.mp hQ]
        exact hok
    · rw [List.perm_iff_count]
      intro f
      simp only [allFiles, List.flatMap_append, List.flatMap_singleton, List.count_append]
      omega
    · rw [List.perm_iff_count]
      intro n
      simp only [allDirs, List.flatMap_append, List.flatMap_singleton, List.count_append]
      omega
  | loadOpen p target ok =>
    simp only [State.next] at hs'
    refine h.onProcess hs' fun P fs ds lost r hP hst hc hr => ?_
    cases hr
    exact loadOpen_settled hc hP (by simpa using hst) target ok
  | loadDeny p =>
    simp only [State.next] at hs'
    exact h.onProcess hs' fun P fs ds lost r hP hst hc hr => loadDeny_settled hc hP hr
  | loadDone p success =>
    simp only [State.next] at hs'
    exact h.onProcess hs' fun P fs ds lost r hP hst hc hr =>
      loadDone_settled hc hP (by simpa using hst) hr
  | exit p =>
    simp only [State.next] at hs'
    exact h.onProcess hs' fun P fs ds lost r hP hst hc hr => processExit_settled hc hP hr
  | «open» p n isDir ok okFd =>
    simp only [State.next] at hs'
    exact h.onProcess hs' fun P fs ds lost r hP hst hc hr => sysOpen_settled hc hP hr
  | close p fd =>
    simp only [State.next] at hs'
    refine h.onProcess hs' fun P fs ds lost r hP hst hc hr => ?_
    obtain ⟨e, he, hr⟩ := Option.bind_eq_some_iff.mp hr
    exact fdClose_settled hc hP (List.mem_of_find?_eq_some he) hr
  | write p fd new =>
    simp only [State.next] at hs'
    refine h.onProcess hs' fun P fs ds lost r hP hst hc hr => ?_
    obtain ⟨f, -, rfl⟩ := Option.map_eq_some_iff.mp hr
    exact ⟨hP, lost, Counts.inodeWriteAt hc⟩
  | mmap p fd ok okMap =>
    simp only [State.next] at hs'
    refine h.onProcess hs' fun P fs ds lost r hP hst hc hr => ?_
    obtain ⟨f, hf, hr⟩ := Option.bind_eq_some_iff.mp hr
    obtain ⟨e, he, hf⟩ := Option.bind_eq_some_iff.mp hf
    refine mmapFile_settled hc hP ?_ hr
    refine List.mem_append_right _ (List.mem_append_left _ ?_)
    exact List.mem_filterMap.mpr ⟨e, List.mem_of_find?_eq_some he, hf⟩
  | writeBack p m new =>
    simp only [State.next] at hs'
    refine h.onProcess hs' fun P fs ds lost r hP hst hc hr => ?_
    split at hr
    · cases hr
      exact ⟨hP, lost, Counts.inodeWriteAt hc⟩
    · cases hr
  | munmap p m =>
    simp only [State.next] at hs'
    refine h.onProcess hs' fun P fs ds lost r hP hst hc hr => ?_
    split at hr
    · rename_i hm
      exact munmapFile_settled hc hP hm hr
    · cases hr
  | chdir p n ok =>
    simp only [State.next] at hs'
    refine h.onProcess hs' fun P fs ds lost r hP hst hc hr => ?_
    cases hr
    exact sysChdir_settled hc hP n ok
  | remove n =>
    obtain ⟨lost, hc⟩ := h.counted
    cases hs'
    exact ⟨h.procs, lost, Counted.closeDir (Counts.inodeRemove (hc.openDir n))⟩

theorem ok_of_reachable (h : handles.Reachable s) : s.Ok := by
  refine System.Reachable.invariant (I := State.Ok) ?_ ?_ h
  · rintro s ⟨hinodes, -, hprocs, hkernel⟩
    refine ⟨by simp [hprocs], fun _ => 0, ⟨fun n => ?_, fun n => ?_, fun n i hi => ?_⟩⟩
    · simp [Store.openCnt, hinodes, allFiles, allDirs, hprocs, hkernel, opening]
    · simp [Store.denyWriteCnt, hinodes, allFiles, hprocs, hkernel, denying]
    · rw [hinodes] at hi
      cases hi
  · intro s op s' hs hn
    exact hs.next hn

end State

end Pintos.Filesys
