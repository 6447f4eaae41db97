/-
  Pintos.Vm.Effect

  What a step of virtual memory can do, said once.  A page fault or a system
  call is a sequence of effects: a frame is allocated, taken from a page or
  given back; a held frame is filled or mapped; a supplemental entry is added
  or removed; a dirty page is written back.  The end of a process is a sequence
  of effects that unmap its files, and then the process is reaped.  The
  invariants of the later modules are proved for each effect and for reaping,
  and the code is related to effects once (`Vm.Sound`).

  Between the moment a step obtains a frame and the moment it maps it or gives
  it back, the frame is held: used in the pool but mapped nowhere.

  The parameters `X` and `img` are for the contents of memory.  `X` are files
  that nothing but their own mapping writes, and `img` are the pages that have
  been installed at some time.
-/

import Pintos.Vm.Mapping

namespace Pintos.Vm

open Pintos.Base Pintos.Lib

/-- What the owner of each page should see in it; `none` for a page that was
    never installed. -/
abbrev Image := Pid → PageNo → Option PageData

/-- A state in the middle of a step, with the frame the step holds. -/
abbrev Held := State × Option Frame

/-- The contents of a page as its file has them. -/
def filePage (s : State) (e : SupPageTableEntry) : PageData := fun off =>
  if off < e.readBytes then ((s.files e.file).contents[e.ofs + off]?).getD 0 else 0

/-- The page is mapped to the frame, with the supplemental entry `e`. -/
def State.mapFrame (s : State) (pid : Pid) (page : PageNo) (k : Frame) (e : SupPageTableEntry) :
    State :=
  ((s.setFrameTable (s.frameTable ++ [⟨k, pid, some page⟩])).setSpte pid page (some e)).setPte
    pid page ⟨true, k, e.writable, false⟩

/-- The page is unmapped, which leaves the frame table `l` and the supplemental
    entry `e`. -/
def State.unmapFrame (s : State) (l : List FrameTableEntry) (pid : Pid) (page : PageNo)
    (e : Option SupPageTableEntry) : State :=
  ((s.setFrameTable l).setSpte pid page e).setPte pid page
    { s.pte pid page with present := false }

namespace State

variable (s : State) (pid q : Pid) (page r : PageNo)

@[simp] theorem spte_mapFrame (k : Frame) (e : SupPageTableEntry) :
    (s.mapFrame pid page k e).spte q r = if q = pid ∧ r = page then some e else s.spte q r := by
  simp [mapFrame]

@[simp] theorem pte_mapFrame (k : Frame) (e : SupPageTableEntry) :
    (s.mapFrame pid page k e).pte q r =
      if q = pid ∧ r = page then ⟨true, k, e.writable, false⟩ else s.pte q r := by
  simp [mapFrame]

@[simp] theorem spte_unmapFrame (l : List FrameTableEntry) (e : Option SupPageTableEntry) :
    (s.unmapFrame l pid page e).spte q r = if q = pid ∧ r = page then e else s.spte q r := by
  simp [unmapFrame]

@[simp] theorem pte_unmapFrame (l : List FrameTableEntry) (e : Option SupPageTableEntry) :
    (s.unmapFrame l pid page e).pte q r =
      if q = pid ∧ r = page then { s.pte pid page with present := false } else s.pte q r := by
  simp [unmapFrame]

theorem setPhase_mapFrame (k : Frame) (e : SupPageTableEntry) (ph : Phase) :
    (s.mapFrame pid page k e).setPhase pid ph = (s.setPhase pid ph).mapFrame pid page k e := by
  simp [mapFrame, setPhase, setPte, setSpte, setProc, setFrameTable]

end State

/-- The end of `process_exit`: the process, its frame table entries and its
    frames are gone. -/
structure Reaped (s s' : State) (pid : Pid) : Prop where
  procs : s'.procs = Function.update s.procs pid {}
  frameTable : s'.frameTable = s.frameTable.filter fun fte => fte.owner ≠ pid
  frames : ∀ k, (∀ page, (s.pte pid page).present = true → (s.pte pid page).frame ≠ k) →
    s'.userPool[k]? = s.userPool[k]? ∧ s'.mem k = s.mem k
  swapSlots : s'.swapSlots = s.swapSlots
  swapBlock : s'.swapBlock = s.swapBlock
  contents : ∀ f, (s'.files f).contents = (s.files f).contents
  denyWriteCnt : ∀ f, (s'.files f).denyWriteCnt =
    (s.files f).denyWriteCnt - if (s.procs pid).exe = some f then 1 else 0

/-- A page of a mapping of `f` is loaded and dirty. -/
def DirtyMapping (s : State) (f : FileId) : Prop :=
  ∃ pid page e m, s.spte pid page = some e ∧ e.mapping = some m ∧ m.file = f ∧
    (s.pte pid page).present = true ∧ (s.pte pid page).dirty = true

/-- Some page belongs to a mapping of `f`. -/
def Mapped (s : State) (f : FileId) : Prop :=
  ∃ pid page e m, s.spte pid page = some e ∧ e.mapping = some m ∧ m.file = f

/-- The effects a step is made of. -/
inductive Effect (X : Set FileId) (img : Image) : Held → Held → Prop
  | alloc {s : State} {k : Frame} (hk : s.userPool[k]? = some false) :
      Effect X img (s, none) ((s.setUserPool (s.userPool.set k true)).setMem k fun _ => 0, some k)
  | free {s : State} {k : Frame} :
      Effect X img (s, some k)
        ((s.setUserPool (s.userPool.set k false)).setMem k fun _ => 0xcc, none)
  | fill {s : State} {k : Frame} (d : PageData) : Effect X img (s, some k) (s.setMem k d, some k)
  | installNew {s : State} {k : Frame} {pid : Pid} {page : PageNo}
      (hphase : (s.procs pid).phase = .running) (hspte : s.spte pid page = none)
      (himg : img pid page = none) :
      Effect X img (s, some k) (s.mapFrame pid page k .fresh, none)
  | installFile {s : State} {k : Frame} {pid : Pid} {page : PageNo} {e : SupPageTableEntry}
      (hphase : (s.procs pid).phase = .running) (hspte : s.spte pid page = some e)
      (hload : e.isLoaded = false) (hsource : e.source = .fileBacked)
      (hdata : ∀ off < PGSIZE, s.mem k off = filePage s e off) :
      Effect X img (s, some k) (s.mapFrame pid page k { e with isLoaded := true }, none)
  | installSwap {s : State} {k : Frame} {pid : Pid} {page : PageNo} {e : SupPageTableEntry}
      {i : Nat} {b : List Bool}
      (hphase : (s.procs pid).phase = .running) (hspte : s.spte pid page = some e)
      (hload : e.isLoaded = false) (hsource : e.source = .swap)
      (hslot : e.swapSlotIndex = some i) (hslots : s.swapSlots = some b)
      (hdata : ∀ off < PGSIZE, s.mem k off = slotData s i off) :
      Effect X img (s, some k)
        ((s.setSwapSlots (b.set i false)).mapFrame pid page k
          { e with isLoaded := true, swapSlotIndex := none }, none)
  | installStack {s : State} {k : Frame} {pid : Pid} {page : PageNo} {e : SupPageTableEntry}
      (hphase : (s.procs pid).phase = .loading)
      (hspte : s.spte pid page = some e ∨ s.spte pid page = none ∧ e = .fresh)
      (himg : img pid page = none) :
      Effect X img (s, some k)
        ((s.mapFrame pid page k { e with writable := true, isLoaded := true }).setPhase pid .running,
          none)
  | evictFile {s : State} {l : List FrameTableEntry} {k : Frame} {pid : Pid} {page : PageNo}
      {e : SupPageTableEntry} (hl : s.frameTable.Perm (⟨k, pid, some page⟩ :: l))
      (hspte : s.spte pid page = some e) (hsource : e.source = .fileBacked)
      (hkeep : e.mapping = none → e.writable = false)
      (hclean : e.mapping ≠ none → (s.pte pid page).dirty = true →
        ∀ off < e.readBytes, filePage s e off = s.mem k off) :
      Effect X img (s, none)
        (s.unmapFrame l pid page
          (some { e with isLoaded := false, source := .fileBacked, swapSlotIndex := none }), some k)
  | evictSwap {s : State} {l : List FrameTableEntry} {k : Frame} {pid : Pid} {page : PageNo}
      {e : SupPageTableEntry} {i : Nat} {b : List Bool}
      (hl : s.frameTable.Perm (⟨k, pid, some page⟩ :: l))
      (hspte : s.spte pid page = some e) (hmap : e.mapping = none)
      (hslots : s.swapSlots = some b) (hfree : b[i]? = some false) :
      Effect X img (s, none)
        ((writeToBlock (s.setSwapSlots (b.set i true)) i (s.mem k)).unmapFrame l pid page
          (some { e with swapSlotIndex := some i, isLoaded := false, source := .swap }), some k)
  | permute {s : State} {h : Option Frame} {l : List FrameTableEntry}
      (hl : l.Perm s.frameTable) : Effect X img (s, h) (s.setFrameTable l, h)
  | writeBack {s : State} {h : Option Frame} {pid : Pid} {page : PageNo}
      {e : SupPageTableEntry} {m : MemoryMapping} {n : Nat}
      (hspte : s.spte pid page = some e) (hmap : e.mapping = some m)
      (hpresent : (s.pte pid page).present = true) (hdirty : (s.pte pid page).dirty = true)
      (hn : n ≤ PGSIZE) (hdeny : (s.files m.file).denyWriteCnt = 0) :
      Effect X img (s, h)
        (s.setFile m.file
          { s.files m.file with
            contents := overwrite 0 (s.files m.file).contents e.ofs
              ((s.mem (s.pte pid page).frame).bytes n) }, h)
  | detach {s : State} {l : List FrameTableEntry} {k : Frame} {pid : Pid} {page : PageNo}
      (hl : s.frameTable.Perm (⟨k, pid, some page⟩ :: l)) :
      Effect X img (s, none) (s.unmapFrame l pid page none, some k)
  | remove {s : State} {h : Option Frame} {pid : Pid} {page : PageNo}
      {e : SupPageTableEntry} (hspte : s.spte pid page = some e) (hload : e.isLoaded = false)
      (hsource : e.source = .fileBacked) :
      Effect X img (s, h) (s.setSpte pid page none, h)
  | addExe {s : State} {h : Option Frame} {pid : Pid} {page : PageNo} {f : FileId}
      {ofs readBytes zeroBytes : Nat} {writable : Bool}
      (hphase : (s.procs pid).phase = .loading) (hexe : (s.procs pid).exe = some f)
      (hspte : s.spte pid page = none) (himg : img pid page = none)
      (hbytes : readBytes + zeroBytes = PGSIZE) :
      Effect X img (s, h)
        (s.setSpte pid page (some (.ofFile f ofs readBytes zeroBytes writable)), h)
  | addMapping {s : State} {h : Option Frame} {pid : Pid} {page : PageNo} {m : MemoryMapping}
      {ofs : Nat}
      (hphase : (s.procs pid).phase = .running) (hspte : s.spte pid page = none)
      (himg : img pid page = none) (hid : m.mapid < (s.procs pid).nextMapid)
      (hofs : ofs % PGSIZE = 0)
      (hnew : ∀ r e, s.spte pid r = some e → e.mapping = some m → e.ofs ≠ ofs)
      (hclean : m.file ∈ X → ¬ DirtyMapping s m.file) :
      Effect X img (s, h) (s.setSpte pid page (some (mappingEntry m ofs)), h)
  | fileWrite {s : State} {h : Option Frame} {f : FileId} {b : List UInt8}
      (hdeny : (s.files f).denyWriteCnt = 0) (hX : f ∈ X → ¬ Mapped s f) :
      Effect X img (s, h) (s.setFile f { s.files f with contents := b }, h)
  | exit {s : State} {h : Option Frame} {pid : Pid} (hlive : (s.procs pid).phase ≠ .dead) :
      Effect X img (s, h) (s.setPhase pid .exiting, h)
  | mappings {s : State} {h : Option Frame} {pid : Pid} {l : List MemoryMapping} {n : Nat}
      (hn : (s.procs pid).nextMapid ≤ n) :
      Effect X img (s, h)
        (s.setProc pid { s.procs pid with mmapTable := l, nextMapid := n }, h)
  | stalePte {s : State} {h : Option Frame} {pid : Pid} {page : PageNo} {t : Pte}
      (hold : (s.pte pid page).present = false) (hnew : t.present = false) :
      Effect X img (s, h) (s.setPte pid page t, h)
  | spawn {s : State} {h : Option Frame} {pid : Pid} {f : FileId}
      (hdead : (s.procs pid).phase = .dead) (himg : ∀ page, img pid page = none) :
      Effect X img (s, h)
        ((s.setFile f { s.files f with denyWriteCnt := (s.files f).denyWriteCnt + 1 }).setProc pid
          { phase := .loading, exe := some f }, h)

/-- The effects of a step, in order. -/
abbrev Effects (X : Set FileId) (img : Image) : Held → Held → Prop :=
  Relation.ReflTransGen (Effect X img)

end Pintos.Vm
