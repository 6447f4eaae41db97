/-
  Pintos.Filesys.WriteDenial

  Write denial: `deny_write_cnt` is the number of file objects that deny writes,
  no assertion of `inode_deny_write` and `inode_allow_write` fails, and nothing
  writes to the executable of a running process.
-/

import Pintos.Filesys.HandleCounts

namespace Pintos.Filesys

open Base Store

variable {st : Store} {P : Process} {ok : Bool} {f : File} {r : Store × Process}

/-! ## What writes change -/

namespace Store

variable {s s' : Store} {n : Sector}

@[simp] theorem inodeReopen_data : (s.inodeReopen n).data = s.data := by
  rw [inodeReopen]
  split <;> rfl

@[simp] theorem inodeOpen_data : (s.inodeOpen n).data = s.data := by
  rw [inodeOpen]
  split
  · exact inodeReopen_data
  · rfl

@[simp] theorem inodeClose_data : (s.inodeClose n).data = s.data := by
  rw [inodeClose]
  split
  · split <;> rfl
  · rfl

@[simp] theorem inodeRemove_data : (s.inodeRemove n).data = s.data := by
  rw [inodeRemove]
  split <;> rfl

@[simp] theorem dirClose_data {dir : Option Sector} : (s.dirClose dir).data = s.data := by
  cases dir with
  | none => rfl
  | some d => exact inodeClose_data

@[simp] theorem fileOpen_data : (s.fileOpen n ok).1.data = s.data := by
  cases ok with
  | true => rfl
  | false => exact inodeClose_data

@[simp] theorem dirOpen_data : (s.dirOpen n ok).1.data = s.data := by
  cases ok with
  | true => rfl
  | false => exact inodeClose_data

theorem fileDenyWrite_data {r : Store × File} (h : s.fileDenyWrite f = some r) :
    r.1.data = s.data := by
  rw [fileDenyWrite] at h
  split at h
  · cases h
    rfl
  · obtain ⟨s₁, hs₁, rfl⟩ := Option.map_eq_some_iff.mp h
    obtain ⟨i, -, hs₁⟩ := Option.bind_eq_some_iff.mp hs₁
    split at hs₁
    · cases hs₁
      rfl
    · cases hs₁

theorem fileAllowWrite_data {r : Store × File} (h : s.fileAllowWrite f = some r) :
    r.1.data = s.data := by
  rw [fileAllowWrite] at h
  split at h
  · obtain ⟨s₁, hs₁, rfl⟩ := Option.map_eq_some_iff.mp h
    obtain ⟨i, -, hs₁⟩ := Option.bind_eq_some_iff.mp hs₁
    split at hs₁
    · cases hs₁
      rfl
    · cases hs₁
  · cases h
    rfl

theorem fileClose_data {f : Option File} (h : s.fileClose f = some s') : s'.data = s.data := by
  cases f with
  | none =>
    cases h
    rfl
  | some f =>
    obtain ⟨r, hr, rfl⟩ := Option.map_eq_some_iff.mp h
    rw [inodeClose_data, fileAllowWrite_data hr]

theorem foldlM_data {α : Type*} {g : Store → α → Option Store}
    (hg : ∀ s a s', g s a = some s' → s'.data = s.data) {l : List α}
    (h : l.foldlM g s = some s') : s'.data = s.data := by
  induction l generalizing s with
  | nil =>
    cases h
    rfl
  | cons a l ih =>
    rw [List.foldlM_cons] at h
    obtain ⟨s₁, hs₁, h⟩ := Option.bind_eq_some_iff.mp h
    rw [ih h, hg s a s₁ hs₁]

theorem closeExe_data {exe : Option File} (h : closeExe s exe = some s') : s'.data = s.data := by
  cases exe with
  | none =>
    cases h
    rfl
  | some f =>
    obtain ⟨r, hr, h⟩ := Option.bind_eq_some_iff.mp h
    rw [fileClose_data h, fileAllowWrite_data hr]

/-- A write that is denied changes nothing. -/
theorem inodeWriteAt_data {m : Sector} {new : List UInt8} (hd : s.denyWriteCnt n ≠ 0) :
    (s.inodeWriteAt m new).data n = s.data n := by
  rw [inodeWriteAt]
  split
  · rename_i i hi
    split
    · rfl
    · rename_i hallowed
      refine Function.update_of_ne (fun heq => ?_) _ _
      subst heq
      rw [denyWriteCnt, hi] at hd
      exact hallowed hd
  · rfl

end Store

theorem processExit_data (h : processExit st P = some r) :
    r.1.data = st.data := by
  obtain ⟨s₁, hs₁, h⟩ := Option.bind_eq_some_iff.mp h
  obtain ⟨s₂, hs₂, h⟩ := Option.bind_eq_some_iff.mp h
  obtain ⟨s₃, hs₃, rfl⟩ := Option.map_eq_some_iff.mp h
  rw [foldlM_data (fun _ _ _ => fileClose_data) hs₃, closeExe_data hs₂, dirClose_data,
    foldlM_data (fun _ _ _ => fileClose_data) hs₁]

theorem sysOpen_data {n : Sector} {isDir okFd : Bool}
    (h : sysOpen st P n isDir ok okFd = some r) : r.1.data = st.data := by
  simp only [sysOpen] at h
  split at h
  · cases h
    simp
  split at h
  · cases ok <;> cases okFd <;> cases h <;> simp
  · cases ok with
    | false =>
      cases h
      simp
    | true =>
      cases okFd with
      | true =>
        cases h
        simp
      | false =>
        simp only [Store.fileOpen, if_true, Bool.false_eq_true, if_false] at h
        obtain ⟨s₁, hs₁, rfl⟩ := Option.map_eq_some_iff.mp h
        rw [fileClose_data hs₁, inodeOpen_data]

theorem fdClose_data {e : FdEntry} (h : fdClose st P e = some r) :
    r.1.data = st.data := by
  simp only [fdClose] at h
  split at h
  · cases h
    simp
  · obtain ⟨s₁, hs₁, rfl⟩ := Option.map_eq_some_iff.mp h
    exact fileClose_data hs₁

theorem mmapFile_data {okMap : Bool}
    (h : mmapFile st P f ok okMap = some r) : r.1.data = st.data := by
  rw [mmapFile] at h
  cases ok with
  | false =>
    cases h
    simp
  | true =>
    cases okMap with
    | true =>
      cases h
      simp
    | false =>
      simp only [Store.fileReopen, Store.fileOpen, if_true, Bool.false_eq_true, if_false] at h
      obtain ⟨s₁, hs₁, rfl⟩ := Option.map_eq_some_iff.mp h
      rw [fileClose_data hs₁, inodeReopen_data]

theorem loadOpen_data {target : Option Sector} : (loadOpen st P target ok).1.data = st.data := by
  cases target with
  | none => rfl
  | some n => cases ok <;> simp [loadOpen, Store.fileOpen]

theorem sysChdir_data {n : Sector} : (sysChdir st P n ok).1.data = st.data := by
  cases ok <;> simp [sysChdir, Store.dirOpen]

theorem startProcess_data {cwd : Option Sector} : (startProcess st cwd ok).1.data = st.data := by
  cases cwd <;> simp [startProcess]

namespace State

variable {s s' : State}

theorem onProcess_data {p : Nat} {stage : Stage → Bool} {f : Process → Option (Store × Process)}
    {n : Sector} (h : s.onProcess p stage f = some s')
    (hf : ∀ P r, f P = some r → r.1.data n = s.store.data n) :
    s'.store.data n = s.store.data n := by
  obtain ⟨P, -, h⟩ := Option.bind_eq_some_iff.mp h
  split at h
  · obtain ⟨r, hr, rfl⟩ := Option.map_eq_some_iff.mp h
    exact hf P r hr
  · cases h

theorem onKernel_data {g : Option (Store × List File)} {n : Sector}
    (h : s.onKernel f g = some s') (hg : ∀ r, g = some r → r.1.data n = s.store.data n) :
    s'.store.data n = s.store.data n := by
  rw [State.onKernel] at h
  split at h
  · obtain ⟨r, hr, rfl⟩ := Option.map_eq_some_iff.mp h
    exact hg r hr
  · cases h

/-- No step changes an inode to which writes are denied. -/
theorem next_data {op : Op} {n : Sector} (h : s.next op = some s')
    (hd : s.store.denyWriteCnt n ≠ 0) : s'.store.data n = s.store.data n := by
  cases op <;> simp only [State.next] at h
  case fileOpen =>
    cases h
    simp
  case fileReopen =>
    refine onKernel_data h fun r hr => ?_
    cases hr
    simp [Store.fileReopen]
  case fileDenyWrite =>
    refine onKernel_data h fun r hr => ?_
    obtain ⟨r', hr', rfl⟩ := Option.map_eq_some_iff.mp hr
    rw [fileDenyWrite_data hr']
  case fileAllowWrite =>
    refine onKernel_data h fun r hr => ?_
    obtain ⟨r', hr', rfl⟩ := Option.map_eq_some_iff.mp hr
    rw [fileAllowWrite_data hr']
  case fileClose =>
    refine onKernel_data h fun r hr => ?_
    obtain ⟨r', hr', rfl⟩ := Option.map_eq_some_iff.mp hr
    rw [fileClose_data hr']
  case fileWrite =>
    refine onKernel_data h fun r hr => ?_
    cases hr
    exact inodeWriteAt_data hd
  case startProcess =>
    cases h
    rw [startProcess_data]
  case loadOpen =>
    refine onProcess_data h fun P r hr => ?_
    cases hr
    rw [loadOpen_data]
  case loadDeny =>
    refine onProcess_data h fun P r hr => ?_
    obtain ⟨f, -, hr⟩ := Option.bind_eq_some_iff.mp hr
    obtain ⟨r', hr', rfl⟩ := Option.map_eq_some_iff.mp hr
    rw [fileDenyWrite_data hr']
  case loadDone success =>
    refine onProcess_data h fun P r hr => ?_
    cases success with
    | true =>
      cases hr
      rfl
    | false =>
      obtain ⟨r', hr', rfl⟩ := Option.map_eq_some_iff.mp hr
      rw [closeExe_data hr']
  case exit => exact onProcess_data h fun P r hr => by rw [processExit_data hr]
  case «open» => exact onProcess_data h fun P r hr => by rw [sysOpen_data hr]
  case close =>
    refine onProcess_data h fun P r hr => ?_
    obtain ⟨e, -, hr⟩ := Option.bind_eq_some_iff.mp hr
    rw [fdClose_data hr]
  case write =>
    refine onProcess_data h fun P r hr => ?_
    obtain ⟨f, -, rfl⟩ := Option.map_eq_some_iff.mp hr
    exact inodeWriteAt_data hd
  case mmap =>
    refine onProcess_data h fun P r hr => ?_
    obtain ⟨f, -, hr⟩ := Option.bind_eq_some_iff.mp hr
    rw [mmapFile_data hr]
  case writeBack =>
    refine onProcess_data h fun P r hr => ?_
    split at hr
    · cases hr
      exact inodeWriteAt_data hd
    · cases hr
  case munmap =>
    refine onProcess_data h fun P r hr => ?_
    split at hr
    · obtain ⟨r', hr', rfl⟩ := Option.map_eq_some_iff.mp hr
      rw [fileClose_data hr']
    · cases hr
  case chdir =>
    refine onProcess_data h fun P r hr => ?_
    cases hr
    rw [sysChdir_data]
  case remove =>
    cases h
    simp

/-! ## Write denial -/

/-- The process runs a program loaded from inode `n`. -/
def runs (s : State) (n : Sector) : Prop :=
  ∃ P ∈ s.procs, P.stage = .running ∧ ∃ f, P.exe = some f ∧ f.inode = n

structure WriteDenial (s : State) : Prop where
  count : ∀ n i, s.store.inodes n = some i →
    i.denyWriteCnt = denying s.allFiles n ∧ i.denyWriteCnt ≤ i.openCnt
  isOpen : ∀ f ∈ s.allFiles, (s.store.inodes f.inode).isSome
  /-- No assertion fails. -/
  total : ∀ f ∈ s.allFiles, (s.store.fileDenyWrite f).isSome ∧ (s.store.fileAllowWrite f).isSome ∧
    (s.store.fileClose (some f)).isSome
  /-- Nothing writes to the executable of a running process. -/
  kept : ∀ n, s.runs n → ∀ op s', s.next op = some s' → s'.store.data n = s.store.data n

theorem Ok.writeDenial (h : s.Ok) : WriteDenial s := by
  obtain ⟨lost, hc⟩ := h.counted
  refine ⟨fun n i hi => ?_, fun f hf => ?_, fun f hf => ?_, fun n hn op s' hs' => ?_⟩
  · have hopen := hc.opens n
    have hdeny := hc.denies n
    rw [Store.openCnt, hi] at hopen
    rw [Store.denyWriteCnt, hi] at hdeny
    have hle := denying_le_opening s.allFiles n
    simp only [Option.map_some, Option.getD_some] at hopen hdeny
    omega
  · obtain ⟨i, hi, -⟩ := hc.exists_inode (pos_of_mem hf)
    rw [hi]
    rfl
  · have hc' := hc.perm (List.perm_cons_erase hf).symm (List.Perm.refl _)
    obtain ⟨_, hdeny, -⟩ := hc'.fileDenyWrite
    obtain ⟨_, hallow, -⟩ := hc'.fileAllowWrite
    obtain ⟨_, hclose, -⟩ := hc'.fileClose
    rw [hdeny, hallow, hclose]
    exact ⟨rfl, rfl, rfl⟩
  · obtain ⟨P, hP, hstage, f, hexe, rfl⟩ := hn
    obtain ⟨g, hg, hdeny⟩ := (h.procs P hP).denied (Or.inr hstage)
    obtain rfl : f = g := Option.some.inj (hexe.symm.trans hg)
    refine next_data hs' ?_
    rw [hc.denies f.inode]
    refine Nat.pos_iff_ne_zero.mp (List.countP_pos_iff.mpr ⟨f, ?_, ?_⟩)
    · refine List.mem_append_right _ (List.mem_flatMap.mpr ⟨P, hP, ?_⟩)
      rw [Process.files, hexe]
      exact List.mem_append_left _ (List.mem_singleton_self f)
    · rw [hdeny, beq_self_eq_true]
      rfl

end State

/-- `deny_write_cnt` counts the file objects that deny writes, and an executable
    is not written while a process runs it. -/
theorem write_denial_counted {s : State} (h : handles.Reachable s) : s.WriteDenial :=
  (State.ok_of_reachable h).writeDenial

/-- A process runs a program that another file object wants to write. -/
theorem write_denial_counted_running : ∃ s : State, handles.Reachable s ∧
    (s.procs.any fun P => P.stage == .running && P.exe == some ⟨7, true⟩) = true ∧
    s.WriteDenial := by
  obtain ⟨s, hs, hp⟩ := System.reachable_of_run (S := handles) (s := State.fresh)
    (l := [.fileOpen 7 true, .startProcess none true, .loadOpen 0 (some 7) true, .loadDeny 0,
      .loadDone 0 true])
    (p := fun s => s.procs.any fun P => P.stage == .running && P.exe == some ⟨7, true⟩)
    ⟨fun _ => rfl, rfl, rfl, rfl⟩ (by decide)
  exact ⟨s, hs, hp, write_denial_counted hs⟩

end Pintos.Filesys
