/-
  Pintos.Fs.Session

  Runs of the calls of inode.c.  A store of files with counters of their openers says
  what each call may answer and what it changes; the inodes on the device refine it,
  whatever calls came before.
-/

import Pintos.Filesys.Handles
import Pintos.Fs.Chunks
import Pintos.Fs.Filesys

namespace Pintos.Fs

open Pintos.Base Function

/-- A sector and the inode on it, as `filesys_create` makes them. -/
def createInode (len : Nat) : M (Option Sector) := do
  match ← freeMapAllocate 1 with
  | none => pure none
  | some p => do
    let success ← inodeCreate p len
    releaseFailed success p
    pure (if success then some p else none)

inductive Op
  | create (len : Nat)
  | openInode (n : Sector)
  | read (n : Sector) (size offset : Nat)
  | write (n : Sector) (buffer : List UInt8) (offset : Nat)
  | setDir (n : Sector) (dir : Bool)
  | denyWrite (n : Sector)
  | allowWrite (n : Sector)
  | remove (n : Sector)
  | close (n : Sector)

inductive Answer
  | done
  | inode (p : Option Sector)
  | bytes (l : List UInt8)
  | count (w : Nat)
  deriving DecidableEq

def Op.run : Op → M Answer
  | .create len => do pure (.inode (← createInode len))
  | .openInode n => do pure (.inode (← inodeOpen n))
  | .read n size offset => do pure (.bytes (← inodeReadAt n size offset))
  | .write n buffer offset => do pure (.count (← inodeWriteAt n buffer buffer.length offset))
  | .setDir n dir => do inodeSetDir n dir; pure .done
  | .denyWrite n => do inodeDenyWrite n; pure .done
  | .allowWrite n => do inodeAllowWrite n; pure .done
  | .remove n => do inodeRemove n; pure .done
  | .close n => do inodeClose (some n); pure .done

/-- A call of the store of files.  A write stores all of its bytes or, if it is denied or
    the file has to grow for it, none. -/
inductive FileCall (F : FileMap) (I : Infos) : Op → Answer → FileMap → Infos → Prop
  | create {len : Nat} {p} (hcap : len ≤ capacityBytes) (hF : F p = none) (hI : I p = none) :
    FileCall F I (.create len) (.inode (some p)) (update F p (some ⟨false, List.replicate len 0⟩)) I
  | createFails {len : Nat} (hcap : len ≤ capacityBytes) :
    FileCall F I (.create len) (.inode none) F I
  | openInode {n f} (hF : F n = some f) :
    FileCall F I (.openInode n) (.inode (some n)) F (update I n (some (.opened (I n))))
  | read {n f k size offset l} (hF : F n = some f) (hk : I n = some k)
      (hl : l = (f.bytes.drop offset).take size) :
    FileCall F I (.read n size offset) (.bytes l) F I
  | write {n f k buffer offset w} (hF : F n = some f) (hk : I n = some k) (hne : 0 < buffer.length)
      (hcap : (offset + buffer.length : Nat) ≤ capacityBytes) (hdeny : k.denyWriteCnt = 0)
      (hw : w = buffer.length) :
    FileCall F I (.write n buffer offset) (.count w) (update F n (some (f.write offset buffer))) I
  | writeFails {n f k buffer offset w} (hF : F n = some f) (hk : I n = some k) (hne : 0 < buffer.length)
      (hcap : (offset + buffer.length : Nat) ≤ capacityBytes)
      (hno : k.denyWriteCnt = 0 → f.bytes.length < offset + buffer.length) (hw : w = 0) :
    FileCall F I (.write n buffer offset) (.count w) F I
  | setDir {n f k dir} (hF : F n = some f) (hk : I n = some k) :
    FileCall F I (.setDir n dir) .done (update F n (some ⟨dir, f.bytes⟩)) I
  | denyWrite {n f k} (hF : F n = some f) (hk : I n = some k) (hlt : k.denyWriteCnt < k.openCnt) :
    FileCall F I (.denyWrite n) .done F
      (update I n (some { k with denyWriteCnt := k.denyWriteCnt + 1 }))
  | allowWrite {n f k} (hF : F n = some f) (hk : I n = some k) (hpos : 0 < k.denyWriteCnt)
      (hle : k.denyWriteCnt ≤ k.openCnt) :
    FileCall F I (.allowWrite n) .done F
      (update I n (some { k with denyWriteCnt := k.denyWriteCnt - 1 }))
  | remove {n f k} (hF : F n = some f) (hk : I n = some k) :
    FileCall F I (.remove n) .done F (update I n (some { k with removed := true }))
  | close {n f k} (hF : F n = some f) (hk : I n = some k) :
    FileCall F I (.close n) .done (Represents.afterClose F n k) (update I n k.closed)

/-- The states of a run, and the files as its answers tell. -/
inductive Session : State → FileMap → Prop
  | start {s F} (h : Represents s F) (hok : s.MallocsSucceed) : Session s F
  | call {s s' F F' op r} (h : Session s F) (hrun : op.run s = .ok r s')
      (hcall : FileCall F s.info op r F' s'.info) : Session s' F'

variable {s s' : State} {F F' : FileMap} {I I' : Infos} {n p : Sector} {f : File} {k : Info}
  {len size offset : Nat} {buffer : List UInt8} {op : Op} {r : Answer}

/-- The answer tells what became of the files. -/
theorem FileCall.unique {F₁ F₂ : FileMap} {I₁ I₂ : Infos} (h₁ : FileCall F I op r F₁ I₁)
    (h₂ : FileCall F I op r F₂ I₂) : F₁ = F₂ := by
  cases h₁ <;> cases h₂ <;> simp_all

/-! ## One call -/

/-- The call runs and does what the store of files does. -/
def Op.Refines (F : FileMap) (s : State) (op : Op) : Prop :=
  ∃ r s' F' I', op.run s = .ok r s' ∧ FileCall F s.info op r F' I' ∧ Becomes s s' F' I'

theorem create_refines (h : Represents s F) (hcap : len ≤ capacityBytes) :
    (Op.create len).Refines F s := by
  obtain ⟨store, owner, hc, rfl⟩ := h
  by_cases hcan : CanAllocate s 1
  · obtain ⟨p, s₁, hrun, hres, hev, hinfo⟩ := hc.allocate hcan
    obtain ⟨s₂, hev₂, hinfo₂, ⟨hmake, hrep⟩ | ⟨hmake, store', owner', hc₂, hv, hused, hfree⟩⟩ :=
      hres.creates hcap
    · refine ⟨_, s₂, _, _, bind_ok ?_, .create hcap hres.not_live (hinfo ▸ hres.not_open), hrep,
        hev.trans hev₂, hinfo₂.trans hinfo⟩
      rw [createInode, bind_ok hrun]
      exact bind_ok hmake
    · -- the sector is given back
      obtain ⟨s₃, hrel, -, hc₃, hv₃, hev₃, hinfo₃⟩ := hc₂.release hused hfree
      refine ⟨_, s₃, _, _, bind_ok ?_, .createFails hcap, ⟨store', owner', hc₃, hv₃.trans hv⟩,
        hev.trans (hev₂.trans hev₃), hinfo₃.trans (hinfo₂.trans hinfo)⟩
      have hfailed : releaseFailed false p s₂ = .ok () s₃ := by
        rw [releaseFailed, if_pos ⟨rfl, hc₂.ne_freeMap (hc₂.store_eq_none hfree)⟩, hrel]
      rw [createInode, bind_ok hrun]
      exact (bind_ok hmake).trans (bind_ok hfailed)
  · obtain ⟨s₁, hrun, hb⟩ := hc.allocate_none hcan
    exact ⟨_, s₁, _, _, bind_ok (bind_ok hrun), .createFails hcap, hb⟩

theorem write_refines (h : Represents s F) (hok : s.MallocsSucceed) (hF : F n = some f)
    (hk : s.info n = some k) (hne : 0 < buffer.length)
    (hcap : (offset + buffer.length : Nat) ≤ capacityBytes) :
    (Op.write n buffer offset).Refines F s := by
  have hbound : offset + buffer.length < 2 ^ 31 := by
    exact_mod_cast lt_of_le_of_lt hcap capacityBytes_lt
  by_cases hdeny : k.denyWriteCnt = 0
  · by_cases hroom : offset + buffer.length ≤ f.bytes.length ∨ HasRoom s n (offset + buffer.length)
    · obtain ⟨s', hrun, hrep, hev, hinfo, -⟩ := h.write hok hF hk hdeny buffer hbound hroom
      exact ⟨_, s', _, _, bind_ok hrun, .write hF hk hne hcap hdeny rfl, hrep, hev, hinfo⟩
    · obtain ⟨s', hrun, hb⟩ := h.write_no_room hF hk buffer hcap hbound hroom
      exact ⟨_, s', _, _, bind_ok hrun, .writeFails hF hk hne hcap (fun _ => by omega) rfl, hb⟩
  · obtain ⟨i, hi, -, -, hdenyi⟩ := exists_inode_of_info hk
    exact ⟨_, s, F, _, bind_ok (inodeWriteAt_denied hi (hdenyi ▸ hdeny) _ _ _),
      .writeFails hF hk hne hcap (fun hzero => absurd hzero hdeny) rfl, h, .refl s, rfl⟩

/-- A call that the store of files has is refined by the inodes. -/
theorem FileCall.refines (h : Represents s F) (hok : s.MallocsSucceed)
    (hop : FileCall F s.info op r F' I') : op.Refines F s := by
  cases hop with
  | create hcap | createFails hcap => exact create_refines h hcap
  | write hF hk hne hcap | writeFails hF hk hne hcap => exact write_refines h hok hF hk hne hcap
  | openInode hF =>
    obtain ⟨r, s', hrun, ⟨rfl, hb⟩ | ⟨-, -, hno⟩⟩ := h.opens hF
    · exact ⟨_, s', _, _, bind_ok hrun, .openInode hF, hb⟩
    · exact absurd hok hno
  | read hF hk =>
    obtain ⟨l, hrun, hl⟩ := h.read hok hF hk _ _
    exact ⟨_, _, F, _, bind_ok hrun, .read hF hk rfl, h.setMallocs l, .setMallocs hl, rfl⟩
  | setDir hF hk =>
    obtain ⟨s', hrun, hb⟩ := h.setsDir hF hk _
    exact ⟨_, s', _, _, bind_ok hrun, .setDir hF hk, hb⟩
  | denyWrite hF hk hlt =>
    obtain ⟨s', hrun, hb⟩ := h.denies hF hk hlt
    exact ⟨_, s', _, _, bind_ok hrun, .denyWrite hF hk hlt, hb⟩
  | allowWrite hF hk hpos hle =>
    obtain ⟨s', hrun, hb⟩ := h.allows hF hk hpos hle
    exact ⟨_, s', _, _, bind_ok hrun, .allowWrite hF hk hpos hle, hb⟩
  | remove hF hk =>
    obtain ⟨s', hrun, hb⟩ := h.marks hF hk
    exact ⟨_, s', _, _, bind_ok hrun, .remove hF hk, hb⟩
  | close hF hk =>
    obtain ⟨s', hrun, hb⟩ := h.closes hF hk
    exact ⟨_, s', _, _, bind_ok hrun, .close hF hk, hb⟩

/-! ## The handles -/

/-- The open inodes as `Filesys` has them, where handles are counted. -/
def Info.handle (k : Info) : Filesys.Inode := ⟨k.openCnt, k.denyWriteCnt, k.removed⟩

def handles (I : Infos) (n : Sector) : Option Filesys.Inode := (I n).map Info.handle

/-- What a call does there; `none` is a failed assertion. -/
def Op.onHandles (t : Filesys.Store) : Op → Option Filesys.Store
  | .openInode n => some (t.inodeOpen n)
  | .denyWrite n => t.inodeDenyWrite n
  | .allowWrite n => t.inodeAllowWrite n
  | .remove n => some (t.inodeRemove n)
  | .close n => some (t.inodeClose n)
  | .create _ | .read .. | .write .. | .setDir .. => some t

theorem handles_update (x : Option Info) :
    handles (update I n x) = update (handles I) n (x.map Info.handle) := by
  funext m
  by_cases hm : m = n
  · subst hm
    simp [handles]
  · simp [handles, update_of_ne hm]

/-- The two models of the open inodes agree on every call. -/
theorem FileCall.onHandles (hrep : Represents s F) (h : FileCall F s.info op r F' I')
    {t : Filesys.Store} (ht : t.inodes = handles s.info) :
    ∃ t', op.onHandles t = some t' ∧ t'.inodes = handles I' := by
  have hinode : ∀ {n k}, s.info n = some k → t.inodes n = some k.handle := by
    intro n k hk
    rw [ht, handles, hk]
    rfl
  cases h with
  | create | createFails | read | write | writeFails | setDir => exact ⟨t, rfl, ht⟩
  | @openInode n _ hF =>
    refine ⟨_, rfl, ?_⟩
    rw [handles_update, ← ht, Filesys.Store.inodeOpen, Filesys.Store.inodeReopen]
    cases hk : s.info n with
    | none =>
      have hnone : t.inodes n = none := by rw [ht, handles, hk]; rfl
      simp only [hnone]
      rfl
    | some k =>
      simp only [hinode hk]
      rfl
  | denyWrite hF hk hlt =>
    rw [Op.onHandles, Filesys.Store.inodeDenyWrite, hinode hk]
    exact ⟨_, if_pos hlt, by rw [handles_update, ← ht]; rfl⟩
  | allowWrite hF hk hpos hle =>
    rw [Op.onHandles, Filesys.Store.inodeAllowWrite, hinode hk]
    exact ⟨_, if_pos ⟨hpos, hle⟩, by rw [handles_update, ← ht]; rfl⟩
  | remove hF hk =>
    refine ⟨_, rfl, ?_⟩
    simp only [handles_update, ← ht, Filesys.Store.inodeRemove, hinode hk]
    rfl
  | @close n _ k hF hk =>
    refine ⟨_, rfl, ?_⟩
    have hpos := hrep.openCnt_pos hk
    have hlast : k.openCnt - 1 = 0 ↔ k.openCnt = 1 := by omega
    simp only [handles_update, ← ht, Filesys.Store.inodeClose, hinode hk, Info.closed, Info.handle,
      hlast]
    split <;> rfl

/-! ## Runs -/

theorem Session.represents (h : Session s F) : Represents s F ∧ s.MallocsSucceed := by
  induction h with
  | start h hok => exact ⟨h, hok⟩
  | call _ hrun hcall ih =>
    obtain ⟨r', s₁, F₁, I₁, hrun₁, hcall₁, hb⟩ := hcall.refines ih.1 ih.2
    cases hrun.symm.trans hrun₁
    exact ⟨hcall.unique hcall₁ ▸ hb.represents, hb.evolves.mallocsSucceed ih.2⟩

/-- After any run, a call that the store of files has does not fail, and its answer and its
    effect are of the store of files. -/
theorem inodes_refine_files (h : Session s F) (hop : FileCall F s.info op r F' I') :
    ∃ r₁ s₁ F₁, op.run s = .ok r₁ s₁ ∧ FileCall F s.info op r₁ F₁ s₁.info ∧ Represents s₁ F₁ ∧
      Session s₁ F₁ := by
  obtain ⟨hrep, hok⟩ := h.represents
  obtain ⟨r₁, s₁, F₁, I₁, hrun, hcall, hb⟩ := hop.refines hrep hok
  cases hb.info
  exact ⟨r₁, s₁, F₁, hrun, hcall, hb.represents, .call h hrun hcall⟩

theorem smallSession : Session (smallOpen 5) smallFiles :=
  .start (smallOpen_represents (by decide)) (by rintro _ ⟨⟩)

theorem smallCall : FileCall smallFiles (smallOpen 5).info (.write 1 [1, 2, 3, 4] 0) (.count 4)
    (update smallFiles 1 (some ⟨false, [1, 2, 3, 4]⟩)) (smallOpen 5).info :=
  @FileCall.write _ _ _ _ _ [1, 2, 3, 4] 0 _ smallFiles_one (smallOpen_info 5) (by decide)
    (by decide) rfl rfl

/-- Four bytes are written to the empty file. -/
theorem inodes_refine_files_small :
    ∃ r s' F', (Op.write 1 [1, 2, 3, 4] 0).run (smallOpen 5) = .ok r s' ∧ Session s' F' := by
  obtain ⟨r, s', F', hrun, -, -, h⟩ := inodes_refine_files smallSession smallCall
  exact ⟨r, s', F', hrun, h⟩

/-- The current copy of an inode, in memory if it is open. -/
def State.current (s : State) (n : Sector) : Memory :=
  ((s.inode? n).map Inode.data).getD (s.disk n)

/-- The call does not fail, and this holds of its answer and of the state after it. -/
def Op.check (op : Op) (P : Answer → State → Bool) (s : State) : Bool :=
  match op.run s with
  | .ok r s' => P r s'
  | .error _ _ => false

theorem Session.next {P : Answer → State → Bool} (h : Session s F)
    (hop : FileCall F s.info op r F' I') (hcheck : op.check P s = true) :
    ∃ r₁ s₁ F₁, FileCall F s.info op r₁ F₁ s₁.info ∧ Session s₁ F₁ ∧ P r₁ s₁ = true := by
  obtain ⟨hrep, hok⟩ := h.represents
  obtain ⟨r₁, s₁, F₁, I₁, hrun, hcall, hb⟩ := hop.refines hrep hok
  cases hb.info
  rw [Op.check, hrun] at hcheck
  exact ⟨r₁, s₁, F₁, hcall, .call h hrun hcall, hcheck⟩

/-- Bytes are written to one file, and another one is created in sector 4. -/
theorem two_files : ∃ s F, Session s F ∧ F 1 = some ⟨false, [1, 2, 3, 4]⟩ ∧
    F 4 = some ⟨false, .replicate 512 0⟩ ∧
    sectors (s.current 1) = 1 ∧ sectors (s.current 4) = 1 := by
  obtain ⟨r₁, s₁, F₁, hcall₁, h₁, hp⟩ := smallSession.next smallCall (P := fun r s =>
    decide (r = .count 4) && (Op.create 512).check (fun r s => decide (r = .inode (some 4)) &&
      decide (sectors (s.current 1) = 1 ∧ sectors (s.current 4) = 1)) s) (by decide +kernel)
  simp only [Bool.and_eq_true, decide_eq_true_eq] at hp
  obtain ⟨rfl, hp⟩ := hp
  cases hcall₁.unique smallCall
  obtain ⟨r₂, s₂, F₂, hcall₂, h₂, hp⟩ := h₁.next (.createFails (by decide : 512 ≤ capacityBytes)) hp
  simp only [Bool.and_eq_true, decide_eq_true_eq] at hp
  obtain ⟨rfl, hsectors⟩ := hp
  generalize s₂.info = I₂ at hcall₂
  cases hcall₂ with
  | create => exact ⟨s₂, _, h₂, rfl, rfl, hsectors⟩

/-! ## The device -/

/-- After any run every file, open or not, is on the device as its inode there says. -/
theorem files_on_device (h : Session s F) (hF : F n = some f) :
    f = ⟨isDir (s.disk n) != 0, contents s.disk (s.disk n)⟩ := by
  obtain ⟨hrep, -⟩ := h.represents
  have hne := hrep.ne_freeMap hF
  obtain ⟨store, owner, hc, rfl⟩ := hrep
  rw [view, if_neg hne, Option.map_eq_some_iff] at hF
  obtain ⟨d, hd, rfl⟩ := hF
  rw [hc.contents_onDisk hd, (hc.onDisk n d hd).isDir]

/-- The bytes that were written are read from the device. -/
theorem files_on_device_written :
    ∃ s F, Session s F ∧ contents s.disk (s.disk 1) = [1, 2, 3, 4] := by
  obtain ⟨s, F, h, hone, -⟩ := two_files
  have hfile := files_on_device h hone
  rw [File.mk.injEq] at hfile
  exact ⟨s, F, h, hfile.2.symm⟩

theorem Consistent.current_eq {store : Store} {owner : Owner} {d : Memory}
    (h : Consistent s store owner) (hn : store n = some d) : s.current n = d := by
  rw [State.current]
  cases hi : s.inode? n with
  | none => exact h.closed n d hn hi
  | some i => exact Option.some.inj ((h.inode hi).symm.trans hn)

/-- After any run each sector has at most one owner, an inode or a slot of the index of one;
    the free map's inode and those of the files and the slots that they need have theirs, and
    these are marked as used. -/
theorem sectors_have_one_owner (h : Session s F) : ∃ owner : Owner,
    (∀ p r, owner p = some r → s.freeMap[p]? = some true) ∧
    ∀ n, n = FREE_MAP_SECTOR ∨ (∃ f, F n = some f) →
      owner n = some (n, none) ∧ ∀ σ ∈ Needs (sectors (s.current n)),
        owner (slotSector s.disk (s.current n) σ) = some (n, some σ) := by
  obtain ⟨hrep, -⟩ := h.represents
  have hne : ∀ n f, F n = some f → n ≠ FREE_MAP_SECTOR := fun _ _ hF => hrep.ne_freeMap hF
  obtain ⟨store, owner, hc, rfl⟩ := hrep
  refine ⟨owner, hc.owned.used, fun n hn => ?_⟩
  obtain ⟨d, hd⟩ : ∃ d, store n = some d := by
    rcases hn with rfl | ⟨f, hF⟩
    · obtain ⟨i, cnt, d, S, hfile⟩ := hc.owned.file hc.mounted
      exact ⟨_, hc.inode hfile.inode⟩
    · rw [view, if_neg (hne n f hF), Option.map_eq_some_iff] at hF
      obtain ⟨d, hd, -⟩ := hF
      exact ⟨d, hd⟩
  rw [hc.current_eq hd]
  exact ⟨hc.header n d hd, hc.maps hd⟩

/-- The sectors of data of the two files and the inode of the second one are different, and
    are marked as used. -/
theorem sectors_have_one_owner_two : ∃ s F p q, Session s F ∧
    p = slotSector s.disk (s.current 1) (.data 0) ∧
    q = slotSector s.disk (s.current 4) (.data 0) ∧
    p ≠ q ∧ p ≠ 4 ∧ q ≠ 4 ∧ ∀ x ∈ [p, q, 4], s.freeMap[x]? = some true := by
  obtain ⟨s, F, h, hone, htwo, hs₁, hs₂⟩ := two_files
  obtain ⟨owner, hused, hfiles⟩ := sectors_have_one_owner h
  obtain ⟨-, hslots₁⟩ := hfiles 1 (.inr ⟨_, hone⟩)
  obtain ⟨hheader, hslots₂⟩ := hfiles 4 (.inr ⟨_, htwo⟩)
  have hp := hslots₁ (.data 0) (by rw [hs₁, data_mem_needs]; decide)
  have hq := hslots₂ (.data 0) (by rw [hs₂, data_mem_needs]; decide)
  refine ⟨s, F, _, _, h, rfl, rfl, fun heq => ?_, fun heq => ?_, fun heq => ?_, ?_⟩
  · rw [heq, hq] at hp
    cases hp
  · rw [heq, hheader] at hp
    cases hp
  · rw [heq, hheader] at hq
    cases hq
  · simp only [List.mem_cons, List.not_mem_nil, or_false, forall_eq_or_imp, forall_eq]
    exact ⟨hused _ _ hp, hused _ _ hq, hused _ _ hheader⟩

end Pintos.Fs
