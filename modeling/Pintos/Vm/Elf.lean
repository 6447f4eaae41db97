/-
  Pintos.Vm.Elf

  `load` (userprog/process.c): the program headers of an executable, the checks
  of `validate_segment`, the arithmetic on segments, and the loop of
  `load_segment`, which registers the pages in the supplemental page table.

  Fields and counters are 32-bit words and wrap as in the source.  `x & PGMASK`
  is written `x % PG`, and `x & ~PGMASK` is written `x / PG * PG`.
-/

import Pintos.Vm.Mapping

namespace Pintos.Vm.Elf

/-! ## Segments -/

/-- `PGSIZE` as a word. -/
abbrev PG : UInt32 := 4096

/-- `ROUND_UP` -/
def roundUp (x step : UInt32) : UInt32 := (x + step - 1) / step * step

/-- `struct Elf32_Phdr`, without the fields that nothing reads. -/
structure Elf32Phdr where
  pType : UInt32
  pOffset : UInt32
  pVaddr : UInt32
  pFilesz : UInt32
  pMemsz : UInt32
  pFlags : UInt32
  deriving DecidableEq, Repr

/-- `validate_segment`, for a file of this length. -/
def validateSegment (ph : Elf32Phdr) (fileLength : UInt32) : Bool :=
  if ph.pOffset % PG ≠ ph.pVaddr % PG then false
  else if ph.pOffset > fileLength then false
  else if ph.pMemsz < ph.pFilesz then false
  else if ph.pMemsz = 0 then false
  else if !isUserVaddr ph.pVaddr.toNat then false
  else if !isUserVaddr (ph.pVaddr + ph.pMemsz).toNat then false
  else if ph.pVaddr + ph.pMemsz < ph.pVaddr then false
  else if ph.pVaddr < PG then false
  else true

/-- The arguments of `load_segment`, and its variables. -/
structure Segment where
  ofs : UInt32
  upage : UInt32
  readBytes : UInt32
  zeroBytes : UInt32
  deriving DecidableEq, Repr

/-- What `load` computes from a header. -/
def Elf32Phdr.segment (ph : Elf32Phdr) : Segment :=
  let filePage := ph.pOffset / PG * PG
  let memPage := ph.pVaddr / PG * PG
  let pageOffset := ph.pVaddr % PG
  if ph.pFilesz > 0 then
    let readBytes := pageOffset + ph.pFilesz
    ⟨filePage, memPage, readBytes, roundUp (pageOffset + ph.pMemsz) PG - readBytes⟩
  else ⟨filePage, memPage, 0, roundUp (pageOffset + ph.pMemsz) PG⟩

/-- `PF_W` is bit 1 of the flags. -/
def Elf32Phdr.writable (ph : Elf32Phdr) : Bool := ph.pFlags / 2 % 2 = 1

namespace Segment

/-- The assertions at the entry of `load_segment`. -/
def Asserts (g : Segment) : Prop :=
  (g.readBytes + g.zeroBytes) % PG = 0 ∧ g.upage % PG = 0 ∧ g.ofs % PG = 0

instance (g : Segment) : Decidable g.Asserts := inferInstanceAs (Decidable (_ ∧ _))

/-- The condition of the loop. -/
def more (g : Segment) : Bool := g.readBytes > 0 || g.zeroBytes > 0

def pageReadBytes (g : Segment) : UInt32 := if g.readBytes < PG then g.readBytes else PG

def pageZeroBytes (g : Segment) : UInt32 := PG - g.pageReadBytes

def advance (g : Segment) : Segment :=
  ⟨g.ofs + g.pageReadBytes, g.upage + PG, g.readBytes - g.pageReadBytes,
    g.zeroBytes - g.pageZeroBytes⟩

/-- The loop: the variables at the start of each iteration, and at the end.
    They do not depend on the table.  `none` is a loop that is not done. -/
def iterations : Nat → Segment → Option (List Segment × Segment)
  | 0, g => if g.more then none else some ([], g)
  | n + 1, g =>
    if g.more then (iterations n g.advance).map fun r => (g :: r.1, r.2) else some ([], g)

/-- The page of an iteration. -/
def page (g : Segment) : Nat := g.upage.toNat / PGSIZE

/-- The call of `sup_page_table_add_file` in an iteration. -/
def register (pid : Pid) (file : FileId) (writable : Bool) (malloc : PageNo → Bool) (s : State)
    (g : Segment) : Option State :=
  supPageTableAddFile s pid g.page file g.ofs.toNat g.pageReadBytes.toNat g.pageZeroBytes.toNat
    writable (malloc g.page)

end Segment

/-- The address space has `2 ^ 20` pages. -/
def pageCnt : Nat := 2 ^ 20

/-- `load_segment`; `none` is a failure. -/
def loadSegment (pid : Pid) (file : FileId) (g : Segment) (writable : Bool)
    (malloc : PageNo → Bool) (s : State) : Option State :=
  if g.Asserts then
    (g.iterations pageCnt).bind fun r => r.1.foldlM (Segment.register pid file writable malloc) s
  else none

/-! ## The arithmetic -/

section

variable {g : Segment} {n : Nat}

/-- The segment is `n` pages of user memory. -/
structure Segment.Spans (g : Segment) (n : Nat) : Prop where
  bytes : g.readBytes.toNat + g.zeroBytes.toNat = PGSIZE * n
  aligned : g.upage.toNat % PGSIZE = 0
  fits : g.upage.toNat + PGSIZE * n ≤ PHYS_BASE

namespace Segment

theorem pageReadBytes_toNat (g : Segment) :
    g.pageReadBytes.toNat = min g.readBytes.toNat PGSIZE := by
  simp only [pageReadBytes, UInt32.lt_iff_toNat_lt]
  have hpg : PG.toNat = 4096 := rfl
  split <;> simp only [PGSIZE, hpg] at * <;> omega

theorem pageZeroBytes_toNat (g : Segment) :
    g.pageZeroBytes.toNat = PGSIZE - min g.readBytes.toNat PGSIZE := by
  have hpg : PG.toNat = 4096 := rfl
  rw [pageZeroBytes, UInt32.toNat_sub, pageReadBytes_toNat]
  simp only [PGSIZE, hpg]
  omega

theorem more_iff (g : Segment) : g.more = true ↔ 0 < g.readBytes.toNat + g.zeroBytes.toNat := by
  simp only [more, gt_iff_lt, Bool.or_eq_true, decide_eq_true_eq, UInt32.lt_iff_toNat_lt,
    UInt32.toNat_zero]
  omega

/-- One iteration: nothing underflows, and one page less is left. -/
theorem Spans.step (h : g.Spans (n + 1)) :
    g.pageReadBytes ≤ g.readBytes ∧ g.pageZeroBytes ≤ g.zeroBytes ∧ g.advance.Spans n ∧
      g.advance.upage.toNat = g.upage.toNat + PGSIZE ∧
      g.advance.readBytes.toNat = g.readBytes.toNat - PGSIZE ∧
      g.advance.ofs.toNat = (g.ofs.toNat + min g.readBytes.toNat PGSIZE) % 2 ^ 32 := by
  have hbytes := h.bytes
  have haligned := h.aligned
  have hfits := h.fits
  have hpg : PG.toNat = 4096 := rfl
  have hread := g.readBytes.toNat_lt
  have hzero := g.zeroBytes.toNat_lt
  simp only [PGSIZE, PHYS_BASE] at hbytes haligned hfits
  have hread' : g.advance.readBytes.toNat = g.readBytes.toNat - PGSIZE := by
    simp only [advance, UInt32.toNat_sub, pageReadBytes_toNat, PGSIZE]
    omega
  have hzero' : g.advance.zeroBytes.toNat =
      g.zeroBytes.toNat - (PGSIZE - min g.readBytes.toNat PGSIZE) := by
    simp only [advance, UInt32.toNat_sub, pageZeroBytes_toNat, PGSIZE]
    omega
  have hpage : g.advance.upage.toNat = g.upage.toNat + PGSIZE := by
    simp only [advance, UInt32.toNat_add, hpg, PGSIZE]
    omega
  refine ⟨?_, ?_, ⟨?_, ?_, ?_⟩, hpage, hread', ?_⟩
  · rw [UInt32.le_iff_toNat_le, pageReadBytes_toNat]
    exact Nat.min_le_left _ _
  · rw [UInt32.le_iff_toNat_le, pageZeroBytes_toNat]
    simp only [PGSIZE]
    omega
  · rw [hread', hzero']
    simp only [PGSIZE]
    omega
  · rw [hpage]
    simp only [PGSIZE]
    omega
  · rw [hpage]
    simp only [PGSIZE, PHYS_BASE]
    omega
  · rw [advance, UInt32.toNat_add, pageReadBytes_toNat]

/-- The whole loop. -/
theorem Spans.iterations (h : g.Spans n) {fuel : Nat} (hfuel : n ≤ fuel) :
    ∃ l e, g.iterations fuel = some (l, e) ∧ e.readBytes = 0 ∧ e.zeroBytes = 0 ∧
      (∀ x ∈ l, x.pageReadBytes ≤ x.readBytes ∧ x.pageZeroBytes ≤ x.zeroBytes) ∧
      l.map (·.upage.toNat) = (List.range n).map (g.upage.toNat + PGSIZE * ·) ∧
      (l.map (·.pageReadBytes.toNat)).sum = g.readBytes.toNat := by
  induction n generalizing g fuel with
  | zero =>
    have hbytes := h.bytes
    have hdone : g.more = false := by
      rw [← Bool.not_eq_true, more_iff]
      omega
    refine ⟨[], g, ?_, UInt32.toNat_inj.mp (by rw [UInt32.toNat_zero]; omega),
      UInt32.toNat_inj.mp (by rw [UInt32.toNat_zero]; omega), by simp, rfl, ?_⟩
    · cases fuel <;> simp [Segment.iterations, hdone]
    · simp
      omega
  | succ n ih =>
    obtain ⟨hr, hz, hspans, hpage, hread, -⟩ := h.step
    obtain ⟨fuel, rfl⟩ : ∃ m, fuel = m + 1 := ⟨fuel - 1, by omega⟩
    obtain ⟨l, e, hrun, her, hez, hall, hpages, hsum⟩ := ih hspans (Nat.le_of_succ_le_succ hfuel)
    have hmore : g.more = true := by
      rw [more_iff, h.bytes]
      simp only [PGSIZE]
      omega
    refine ⟨g :: l, e, ?_, her, hez, ?_, ?_, ?_⟩
    · rw [Segment.iterations, if_pos hmore, hrun]
      rfl
    · intro x hx
      rcases List.mem_cons.mp hx with rfl | hx
      · exact ⟨hr, hz⟩
      · exact hall x hx
    · rw [List.map_cons, hpages, List.range_succ_eq_map, List.map_cons, List.map_map, hpage,
        Nat.mul_zero, Nat.add_zero]
      refine congrArg (_ :: ·) (List.map_congr_left fun i _ => ?_)
      simp only [Function.comp_apply, PGSIZE]
      omega
    · rw [List.map_cons, List.sum_cons, hsum, hread, pageReadBytes_toNat]
      omega

end Segment

end

/-! ## Validated headers -/

/-- `pg_round_up` -/
def pgRoundUp (va : Nat) : Nat := (va + PGSIZE - 1) / PGSIZE * PGSIZE

/-- `pg_round_down` -/
def pgRoundDown (va : Nat) : Nat := va / PGSIZE * PGSIZE

namespace Elf32Phdr

variable {ph : Elf32Phdr} {len : UInt32}

/-- The bytes of the segment's pages that come from the file. -/
def readTotal (ph : Elf32Phdr) : Nat :=
  if ph.pFilesz = 0 then 0 else ph.pVaddr.toNat % PGSIZE + ph.pFilesz.toNat

/-- What the checks say. -/
theorem bounds (h : validateSegment ph len = true) :
    ph.pFilesz.toNat ≤ ph.pMemsz.toNat ∧ 0 < ph.pMemsz.toNat ∧ PGSIZE ≤ ph.pVaddr.toNat ∧
      ph.pVaddr.toNat + ph.pMemsz.toNat < PHYS_BASE := by
  have hv := ph.pVaddr.toNat_lt
  have hm := ph.pMemsz.toNat_lt
  have hpg : PG.toNat = 4096 := rfl
  simp only [validateSegment, isUserVaddr, Bool.if_false_left, Bool.and_eq_true, Bool.not_eq_eq_eq_not,
    Bool.not_true, decide_eq_false_iff_not, UInt32.lt_iff_toNat_lt,
    UInt32.toNat_add, ← UInt32.toNat_inj, UInt32.toNat_zero, hpg, PGSIZE, PHYS_BASE] at h ⊢
  omega

/-- The pages of the segment. -/
def pages (ph : Elf32Phdr) : Nat :=
  (ph.pVaddr.toNat % PGSIZE + ph.pMemsz.toNat + PGSIZE - 1) / PGSIZE

theorem roundUp_toNat (h : validateSegment ph len = true) :
    (roundUp (ph.pVaddr % PG + ph.pMemsz) PG).toNat = PGSIZE * ph.pages := by
  have hb := bounds h
  have hpg : PG.toNat = 4096 := rfl
  have hone : (1 : UInt32).toNat = 1 := rfl
  simp only [roundUp, pages, UInt32.toNat_mul, UInt32.toNat_div, UInt32.toNat_sub, UInt32.toNat_add,
    UInt32.toNat_mod, hpg, hone, PGSIZE, PHYS_BASE] at hb ⊢
  omega

/-- The segment of a validated header: nothing has wrapped. -/
theorem segment_spec (h : validateSegment ph len = true) :
    ph.segment.readBytes.toNat = ph.readTotal ∧ ph.segment.Spans ph.pages ∧
      ph.segment.upage.toNat = pgRoundDown ph.pVaddr.toNat ∧
      ph.segment.ofs.toNat = pgRoundDown ph.pOffset.toNat := by
  have hb := bounds h
  have hround := roundUp_toNat h
  have hpg : PG.toNat = 4096 := rfl
  have hv := ph.pVaddr.toNat_lt
  have ho := ph.pOffset.toNat_lt
  have hpages : ph.pages = (ph.pVaddr.toNat % 4096 + ph.pMemsz.toNat + 4096 - 1) / 4096 := rfl
  have hpage : ph.segment.upage = ph.pVaddr / PG * PG := by
    unfold segment
    split <;> rfl
  have hofs : ph.segment.ofs = ph.pOffset / PG * PG := by
    unfold segment
    split <;> rfl
  have hbytes : ph.segment.readBytes.toNat = ph.readTotal ∧
      ph.segment.readBytes.toNat + ph.segment.zeroBytes.toNat = PGSIZE * ph.pages := by
    simp only [segment, readTotal, gt_iff_lt, UInt32.lt_iff_toNat_lt, ← UInt32.toNat_inj,
      UInt32.toNat_zero]
    by_cases hfilesz : ph.pFilesz.toNat = 0
    · rw [if_neg (by omega), if_pos hfilesz]
      exact ⟨rfl, by rw [hround, UInt32.toNat_zero, Nat.zero_add]⟩
    · rw [if_pos (by omega), if_neg hfilesz]
      simp only [UInt32.toNat_sub, UInt32.toNat_add, UInt32.toNat_mod, hround, hpg, PGSIZE,
        PHYS_BASE] at hb ⊢
      omega
  refine ⟨hbytes.1, ⟨hbytes.2, ?_, ?_⟩, ?_, ?_⟩ <;>
    simp only [hpage, hofs, hpages, pgRoundDown, UInt32.toNat_mul, UInt32.toNat_div, hpg, PGSIZE,
      PHYS_BASE] at hb ⊢ <;>
    omega

/-- The arithmetic of `load` and `load_segment` on a header is exact. -/
structure SafeSegment (ph : Elf32Phdr) : Prop where
  /-- The sums, and the one inside `ROUND_UP`, fit in 32 bits. -/
  noWrap : ph.pVaddr.toNat % PGSIZE + ph.pFilesz.toNat < 2 ^ 32 ∧
    ph.pVaddr.toNat % PGSIZE + ph.pMemsz.toNat + PGSIZE < 2 ^ 32
  roundUp : (roundUp (ph.pVaddr % PG + ph.pMemsz) PG).toNat =
    pgRoundUp (ph.pVaddr.toNat % PGSIZE + ph.pMemsz.toNat)
  readBytes : ph.segment.readBytes.toNat = ph.readTotal
  zeroBytes : ph.segment.zeroBytes.toNat =
    pgRoundUp (ph.pVaddr.toNat % PGSIZE + ph.pMemsz.toNat) - ph.readTotal
  /-- The subtraction for `zero_bytes` does not go below zero. -/
  noBorrow : ph.readTotal ≤ pgRoundUp (ph.pVaddr.toNat % PGSIZE + ph.pMemsz.toNat)
  asserts : ph.segment.Asserts
  loop : ∃ l e, ph.segment.iterations pageCnt = some (l, e) ∧ e.readBytes = 0 ∧ e.zeroBytes = 0 ∧
    (∀ x ∈ l, x.pageReadBytes ≤ x.readBytes ∧ x.pageZeroBytes ≤ x.zeroBytes) ∧
    -- the pages, in the order in which they are registered
    l.map (·.upage.toNat) = (List.range ((pgRoundUp (ph.pVaddr.toNat + ph.pMemsz.toNat) -
      pgRoundDown ph.pVaddr.toNat) / PGSIZE)).map (pgRoundDown ph.pVaddr.toNat + PGSIZE * ·) ∧
    (∀ x ∈ l, PGSIZE ≤ x.upage.toNat ∧ x.upage.toNat < PHYS_BASE) ∧
    (l.map (·.pageReadBytes.toNat)).sum = ph.readTotal

end Elf32Phdr

open Elf32Phdr

theorem segment_arithmetic_safe (ph : Elf32Phdr) (len : UInt32)
    (h : validateSegment ph len = true) : SafeSegment ph := by
  obtain ⟨hread, hspans, hpage, hofs⟩ := segment_spec h
  have hround := roundUp_toNat h
  have hb := bounds h
  have hpg : PG.toNat = 4096 := rfl
  have hbytes := hspans.bytes
  have hpages : ph.pages = (ph.pVaddr.toNat % 4096 + ph.pMemsz.toNat + 4096 - 1) / 4096 := rfl
  simp only [PGSIZE, PHYS_BASE] at hb hbytes hround
  have hfit : ph.pages ≤ pageCnt := by
    simp only [pageCnt]
    omega
  obtain ⟨l, e, hrun, her, hez, hall, hmap, hsum⟩ := hspans.iterations hfit
  constructor
  case asserts =>
    refine ⟨?_, ?_, ?_⟩ <;>
      simp only [← UInt32.toNat_inj, UInt32.toNat_mod, UInt32.toNat_add, hpage, hofs, pgRoundDown,
        PGSIZE, hpg, UInt32.toNat_zero] <;>
      omega
  case readBytes => exact hread
  case loop =>
    have hcount : (pgRoundUp (ph.pVaddr.toNat + ph.pMemsz.toNat) - pgRoundDown ph.pVaddr.toNat) /
        PGSIZE = ph.pages := by
      simp only [pgRoundUp, pgRoundDown, PGSIZE]
      omega
    refine ⟨l, e, hrun, her, hez, hall, ?_, ?_, by rw [hsum, hread]⟩
    · rw [hmap, hcount, hpage]
    · intro x hx
      have hmem := List.mem_map_of_mem (f := fun x : Segment => x.upage.toNat) hx
      rw [hmap, List.mem_map] at hmem
      obtain ⟨i, hi, hx⟩ := hmem
      have hi := List.mem_range.mp hi
      simp only [← hx, hpage, pgRoundDown, PGSIZE, PHYS_BASE]
      omega
  all_goals
    simp only [pgRoundUp, PGSIZE]
    omega

/-- One page, with 100 bytes from the file. -/
theorem segment_arithmetic_safe_page : SafeSegment ⟨1, 0x1010, 0x8048010, 100, 200, 5⟩ :=
  segment_arithmetic_safe _ 0x2000 (by decide)

/-! ## Reading the executable -/

/-- A 16-bit field of a header. -/
def half (contents : List UInt8) (ofs : Nat) : UInt32 :=
  (contents.getD ofs 0).toUInt32 + 256 * (contents.getD (ofs + 1) 0).toUInt32

/-- A 32-bit field of a header. -/
def word (contents : List UInt8) (ofs : Nat) : UInt32 :=
  half contents ofs + 65536 * half contents (ofs + 2)

/-- `file_read` of a program header. -/
def readPhdr (contents : List UInt8) (ofs : Nat) : Option Elf32Phdr :=
  if ofs + 32 ≤ contents.length then
    some ⟨word contents ofs, word contents (ofs + 4), word contents (ofs + 8),
      word contents (ofs + 16), word contents (ofs + 20), word contents (ofs + 24)⟩
  else none

def PT_LOAD : UInt32 := 1
def PT_DYNAMIC : UInt32 := 2
def PT_INTERP : UInt32 := 3
def PT_SHLIB : UInt32 := 5

section

variable (pid : Pid) (file : FileId) (malloc : PageNo → Bool)

/-- The `switch` on the type of a header. -/
def loadPhdr (ph : Elf32Phdr) (s : State) : Option State :=
  if ph.pType = PT_DYNAMIC ∨ ph.pType = PT_INTERP ∨ ph.pType = PT_SHLIB then none
  else if ph.pType = PT_LOAD then
    if validateSegment ph (.ofNat (s.files file).contents.length) then
      loadSegment pid file ph.segment ph.writable malloc s
    else none
  else some s

/-- The loop over the program headers.  `file_ofs` is negative from `2 ^ 31` on. -/
def loadPhdrs : Nat → UInt32 → State → Option State
  | 0, _, s => some s
  | n + 1, ofs, s =>
    if ofs.toNat ≥ 2 ^ 31 ∨ ofs.toNat > (s.files file).contents.length then none
    else (readPhdr (s.files file).contents ofs.toNat).bind fun ph =>
      (loadPhdr pid file malloc ph s).bind (loadPhdrs n (ofs + 32))

/-- `load`, from the reading of the header of the open executable on.  A page
    gets an entry at most once, so `malloc` is asked at most once about it. -/
def load (a : Allocs) (s : State) : Option State :=
  let ehdr := (s.files file).contents
  if ehdr.length < 52 then none
  else if ehdr.take 7 ≠ [0x7f, 0x45, 0x4c, 0x46, 1, 1, 1] then none
  else if half ehdr 16 ≠ 2 then none
  else if half ehdr 18 ≠ 3 then none
  else if word ehdr 20 ≠ 1 then none
  else if half ehdr 42 ≠ 32 then none
  else if half ehdr 44 > 1024 then none
  else (loadPhdrs pid file malloc (half ehdr 44).toNat (word ehdr 28) s).bind fun s =>
    (setupStack s pid a).filter fun s => (s.procs pid).phase = .running

end

/-- The `PT_LOAD` headers among `n` headers at `ofs`. -/
def loadHeadersAt (contents : List UInt8) : Nat → UInt32 → List Elf32Phdr
  | 0, _ => []
  | n + 1, ofs =>
    (readPhdr contents ofs.toNat).toList.filter (·.pType = PT_LOAD) ++
      loadHeadersAt contents n (ofs + 32)

/-- The `PT_LOAD` headers of an executable. -/
def loadHeaders (contents : List UInt8) : List Elf32Phdr :=
  loadHeadersAt contents (half contents 44).toNat (word contents 28)

/-- The entry that a header prescribes for a page of its span.  The offset is
    stored in 32 bits. -/
def Elf32Phdr.prescribes (ph : Elf32Phdr) (file : FileId) (page : Nat) :
    Option SupPageTableEntry :=
  let i := page - ph.pVaddr.toNat / PGSIZE
  let readBytes := min (ph.readTotal - PGSIZE * i) PGSIZE
  if ph.pVaddr.toNat / PGSIZE ≤ page ∧ i < ph.pages then
    some (.ofFile file ((pgRoundDown ph.pOffset.toNat + min (PGSIZE * i) ph.readTotal) % 2 ^ 32)
      readBytes (PGSIZE - readBytes) ph.writable)
  else none

/-! ## What the table records -/

section

variable {g : Segment} {n : Nat} {pid : Pid} {file : FileId} {malloc : PageNo → Bool}
  {writable : Bool} {s s' : State}

theorem spte_supPageTableAddFile {page : PageNo} {ofs readBytes zeroBytes : Nat} {m : Bool}
    (h : supPageTableAddFile s pid page file ofs readBytes zeroBytes writable m = some s') :
    s'.files = s.files ∧ ∀ q, s'.spte pid q = (s.spte pid q).or
      (if q = page then some (.ofFile file ofs readBytes zeroBytes writable) else none) := by
  unfold supPageTableAddFile at h
  split at h
  next e he =>
    cases h
    refine ⟨rfl, fun q => ?_⟩
    by_cases hq : q = page
    · rw [hq, he, Option.some_or]
    · rw [if_neg hq, Option.or_none]
  next he =>
    obtain ⟨-, h⟩ := Option.ite_none_right_eq_some.mp h
    cases h
    refine ⟨rfl, fun q => ?_⟩
    rw [State.spte_setSpte]
    by_cases hq : q = page
    · rw [if_pos ⟨rfl, hq⟩, if_pos hq, hq, he, Option.none_or]
    · rw [if_neg fun hc => hq hc.2, if_neg hq, Option.or_none]

/-- What the loop registers for a page, if the segment has `n` pages. -/
def Segment.entry (g : Segment) (file : FileId) (writable : Bool) (n page : Nat) :
    Option SupPageTableEntry :=
  let i := page - g.page
  let readBytes := min (g.readBytes.toNat - PGSIZE * i) PGSIZE
  if g.page ≤ page ∧ i < n then
    some (.ofFile file ((g.ofs.toNat + min (PGSIZE * i) g.readBytes.toNat) % 2 ^ 32) readBytes
      (PGSIZE - readBytes) writable)
  else none

theorem Segment.Spans.entry_succ (h : g.Spans (n + 1)) (page : Nat) :
    g.entry file writable (n + 1) page =
      (if page = g.page then
        some (.ofFile file g.ofs.toNat g.pageReadBytes.toNat g.pageZeroBytes.toNat writable)
      else none).or (g.advance.entry file writable n page) := by
  obtain ⟨-, -, -, hpage, hread, hofs⟩ := h.step
  have hlt := g.ofs.toNat_lt
  have hnext : g.advance.page = g.page + 1 := by
    rw [Segment.page, hpage]
    exact Nat.add_div_right _ (by decide)
  simp only [Segment.entry, hnext, hread, hofs, pageReadBytes_toNat, pageZeroBytes_toNat]
  rcases Nat.lt_trichotomy page g.page with hq | rfl | hq
  · have h₀ : ¬ g.page ≤ page := by omega
    have h₁ : ¬ g.page + 1 ≤ page := by omega
    simp only [h₀, h₁, Nat.ne_of_lt hq, false_and, if_false, Option.none_or]
  · have hzero : g.page ≤ g.page ∧ g.page - g.page < n + 1 := by omega
    rw [if_pos hzero, if_pos rfl, Option.some_or, Nat.sub_self, Nat.mul_zero, Nat.zero_min,
      Nat.add_zero, Nat.sub_zero, Nat.mod_eq_of_lt hlt]
  · -- iteration `i + 1` of the segment is iteration `i` of the rest
    rw [if_neg (Nat.ne_of_gt hq), Option.none_or]
    obtain ⟨i, rfl⟩ : ∃ i, page = g.page + 1 + i := ⟨page - (g.page + 1), by omega⟩
    have hi : g.page + 1 + i - g.page = i + 1 := by omega
    have hcond : (g.page ≤ g.page + 1 + i ∧ i + 1 < n + 1) ↔ (g.page + 1 ≤ g.page + 1 + i ∧ i < n) := by
      omega
    have hbytes : g.readBytes.toNat - PGSIZE * (i + 1) = g.readBytes.toNat - PGSIZE - PGSIZE * i := by
      simp only [PGSIZE]
      omega
    have hofs : (g.ofs.toNat + min (PGSIZE * (i + 1)) g.readBytes.toNat) % 2 ^ 32 =
        ((g.ofs.toNat + min g.readBytes.toNat PGSIZE) % 2 ^ 32 +
          min (PGSIZE * i) (g.readBytes.toNat - PGSIZE)) % 2 ^ 32 := by
      simp only [PGSIZE]
      omega
    simp only [hi, Nat.add_sub_cancel_left, hcond, hbytes, hofs]

theorem Segment.Spans.iterations_zero (h : g.Spans 0) {fuel : Nat} {r : List Segment × Segment}
    (hrun : g.iterations fuel = some r) : r = ([], g) := by
  have hdone : g.more = false := by
    rw [← Bool.not_eq_true, more_iff, h.bytes]
    omega
  cases fuel <;> simpa [Segment.iterations, hdone, eq_comm] using hrun

theorem Segment.Spans.iterations_succ (h : g.Spans (n + 1)) {fuel : Nat}
    {r : List Segment × Segment} (hrun : g.iterations fuel = some r) :
    ∃ fuel' r', g.advance.iterations fuel' = some r' ∧ r.1 = g :: r'.1 := by
  have hmore : g.more = true := by
    rw [more_iff, h.bytes]
    simp only [PGSIZE]
    omega
  cases fuel with
  | zero => simp [Segment.iterations, hmore] at hrun
  | succ fuel =>
    rw [Segment.iterations, if_pos hmore] at hrun
    obtain ⟨r', hrest, rfl⟩ := Option.map_eq_some_iff.mp hrun
    exact ⟨fuel, r', hrest, rfl⟩

/-- The run of the loop: the entries that were there stay, and the missing
    ones are added. -/
theorem Segment.Spans.spte_foldlM (h : g.Spans n) {fuel : Nat} {r : List Segment × Segment}
    (hrun : g.iterations fuel = some r)
    (hfold : r.1.foldlM (Segment.register pid file writable malloc) s = some s') :
    s'.files = s.files ∧
      ∀ page, s'.spte pid page = (s.spte pid page).or (g.entry file writable n page) := by
  induction n generalizing g fuel r s with
  | zero =>
    cases h.iterations_zero hrun
    cases hfold
    exact ⟨rfl, fun page => by simp [Segment.entry]⟩
  | succ n ih =>
    obtain ⟨fuel', r', hrest, hr⟩ := h.iterations_succ hrun
    rw [hr] at hfold
    obtain ⟨s₁, hfirst, hfold⟩ := Option.bind_eq_some_iff.mp hfold
    obtain ⟨hfiles, hspte⟩ := spte_supPageTableAddFile hfirst
    obtain ⟨hfiles', hspte'⟩ := ih h.step.2.2.1 hrest hfold
    refine ⟨hfiles'.trans hfiles, fun page => ?_⟩
    rw [hspte', hspte, Option.or_assoc, h.entry_succ]

/-- As long as the offset does not wrap around, the loop is the one over the
    numbers that the pager runs. -/
theorem Segment.Spans.foldlM_eq (h : g.Spans n) {fuel : Nat} {r : List Segment × Segment}
    (hofs : g.ofs.toNat + g.readBytes.toNat < 2 ^ 32) (hrun : g.iterations fuel = some r) :
    ∃ success s', loadSegmentPages pid file writable malloc n g.ofs.toNat g.page
        g.readBytes.toNat g.zeroBytes.toNat s = (success, s') ∧
      r.1.foldlM (Segment.register pid file writable malloc) s =
        if success then some s' else none := by
  induction n generalizing g fuel r s with
  | zero =>
    cases h.iterations_zero hrun
    exact ⟨true, s, rfl, rfl⟩
  | succ n ih =>
    obtain ⟨fuel', r', hrest, hr⟩ := h.iterations_succ hrun
    obtain ⟨-, hz, hspans, hpage, hread, hofs'⟩ := h.step
    have hmin : (if g.readBytes.toNat < PGSIZE then g.readBytes.toNat else PGSIZE) =
        g.pageReadBytes.toNat := by
      rw [pageReadBytes_toNat]
      split <;> omega
    have hread' : g.readBytes.toNat - g.pageReadBytes.toNat = g.advance.readBytes.toNat := by
      rw [hread, pageReadBytes_toNat]
      omega
    have hzero : g.zeroBytes.toNat - (PGSIZE - g.pageReadBytes.toNat) =
        g.advance.zeroBytes.toNat := by
      rw [Segment.advance, UInt32.toNat_sub_of_le _ _ hz, pageZeroBytes_toNat, pageReadBytes_toNat]
    have hnext : g.page + 1 = g.advance.page := by
      rw [Segment.page, Segment.page, hpage]
      exact (Nat.add_div_right _ (by decide)).symm
    have hsum : g.ofs.toNat + g.pageReadBytes.toNat = g.advance.ofs.toNat := by
      rw [hofs', pageReadBytes_toNat, Nat.mod_eq_of_lt (by omega)]
    have hadd : supPageTableAddFile s pid g.page file g.ofs.toNat g.pageReadBytes.toNat
        (PGSIZE - g.pageReadBytes.toNat) writable (malloc g.page) =
        Segment.register pid file writable malloc s g := by
      rw [Segment.register, pageZeroBytes_toNat, pageReadBytes_toNat]
    simp only [loadSegmentPages, hmin, hread', hzero, hnext, hsum, hadd, hr, List.foldlM_cons]
    cases Segment.register pid file writable malloc s g with
    | none => exact ⟨false, s, rfl, rfl⟩
    | some s₁ => exact ih hspans (by omega) hrest

/-- The two models of `load_segment`: here a failure is all that is known, the
    pager goes on with the process that exits. -/
theorem loadSegment_eq_pager (h : g.Spans n) (hn : n ≤ pageCnt) (ha : g.Asserts)
    (hofs : g.ofs.toNat + g.readBytes.toNat < 2 ^ 32) :
    (∀ s', loadSegment pid file g writable malloc s = some s' →
      Pintos.Vm.loadSegment s pid file g.ofs.toNat g.page g.readBytes.toNat g.zeroBytes.toNat
        writable malloc = some s') ∧
    (loadSegment pid file g writable malloc s = none → ∃ t,
      Pintos.Vm.loadSegment s pid file g.ofs.toNat g.page g.readBytes.toNat g.zeroBytes.toNat
        writable malloc = some (exit t pid)) := by
  obtain ⟨l, e, hrun, -⟩ := h.iterations hn
  obtain ⟨success, t, hpages, hfold⟩ := h.foldlM_eq hofs hrun
  have hasserts : PGSIZE * n % PGSIZE = 0 ∧ g.ofs.toNat % PGSIZE = 0 :=
    ⟨Nat.mul_mod_right _ _, congrArg UInt32.toNat ha.2.2⟩
  rw [loadSegment, if_pos ha, hrun, Option.bind_some, hfold, Pintos.Vm.loadSegment, h.bytes,
    Nat.mul_div_cancel_left _ (by decide), hpages]
  simp only [hasserts, and_self, if_true]
  cases success with
  | true => exact ⟨fun _ => id, by simp⟩
  | false => exact ⟨by simp, fun _ => ⟨t, rfl⟩⟩

theorem spte_loadSegment {ph : Elf32Phdr} {len : UInt32} (hvalid : validateSegment ph len = true)
    (h : loadSegment pid file ph.segment ph.writable malloc s = some s') :
    s'.files = s.files ∧
      ∀ page, s'.spte pid page = (s.spte pid page).or (ph.prescribes file page) := by
  obtain ⟨hread, hspans, hpage, hofs⟩ := segment_spec hvalid
  obtain ⟨-, h⟩ := Option.ite_none_right_eq_some.mp h
  obtain ⟨r, hrun, hfold⟩ := Option.bind_eq_some_iff.mp h
  obtain ⟨hfiles, hspte⟩ := hspans.spte_foldlM hrun hfold
  have hfirst : ph.segment.page = ph.pVaddr.toNat / PGSIZE := by
    rw [Segment.page, hpage, pgRoundDown, Nat.mul_div_cancel _ (by decide)]
  refine ⟨hfiles, fun page => ?_⟩
  rw [hspte, Segment.entry, prescribes, hfirst, hread, hofs]

/-- The loop over the headers: of several headers with a page, the first counts. -/
theorem spte_loadPhdrs {ofs : UInt32} (h : loadPhdrs pid file malloc n ofs s = some s') :
    ∀ page, s'.spte pid page = (s.spte pid page).or
      ((loadHeadersAt (s.files file).contents n ofs).findSome? (·.prescribes file page)) := by
  induction n generalizing ofs s with
  | zero =>
    cases h
    intro page
    simp [loadHeadersAt]
  | succ n ih =>
    obtain ⟨-, h⟩ := Option.ite_none_left_eq_some.mp h
    obtain ⟨ph, hph, h⟩ := Option.bind_eq_some_iff.mp h
    obtain ⟨s₁, hfirst, h⟩ := Option.bind_eq_some_iff.mp h
    obtain ⟨-, hfirst⟩ := Option.ite_none_left_eq_some.mp hfirst
    intro page
    rw [ih h, loadHeadersAt, hph]
    split at hfirst
    next htype =>
      obtain ⟨hvalid, hfirst⟩ := Option.ite_none_right_eq_some.mp hfirst
      obtain ⟨hfiles, hspte⟩ := spte_loadSegment hvalid hfirst
      rw [hspte, hfiles, Option.or_assoc]
      cases hp : ph.prescribes file page <;> simp [htype, hp]
    next htype =>
      cases hfirst
      simp [htype]

theorem spte_setupStack {a : Allocs} (h : setupStack s pid a = some s')
    (hrun : (s'.procs pid).phase = .running) (page : PageNo) :
    if page = stackPage then ∃ e, s'.spte pid page = some e ∧ e.isLoaded = true
    else s'.spte pid page = s.spte pid page := by
  -- a failure leaves the process exiting
  have hfail : ∀ {x : Option State}, x.map (exit · pid) ≠ some s' := by
    intro x hx
    obtain ⟨t, -, rfl⟩ := Option.map_eq_some_iff.mp hx
    simp [exit] at hrun
  unfold setupStack at h
  split at h
  next => cases h; simp [exit] at hrun
  next k s₁ hpalloc =>
  have h₁ : ∀ q, s₁.spte pid q = s.spte pid q := by
    obtain ⟨r, -, hr⟩ := Option.map_eq_some_iff.mp hpalloc
    cases hr
    exact fun q => rfl
  split at h
  next => cases h
  next => exact absurd h hfail
  next s₂ hinstall =>
  have h₂ : ∀ q, s₂.spte pid q = s.spte pid q := by
    unfold installPage at hinstall
    split at hinstall <;> try split at hinstall
    all_goals cases hinstall
    exact fun q => by rw [State.spte_setPte, h₁]
  split at h
  next => exact absurd h hfail
  next e s₃ hadd =>
  have h₃ : ∀ q ≠ stackPage, s₃.spte pid q = s.spte pid q := by
    intro q hq
    unfold supPageTableAdd at hadd
    split at hadd <;> try split at hadd
    all_goals cases hadd
    · exact h₂ q
    · rw [State.spte_setSpte, if_neg fun hc => hq hc.2, h₂]
  unfold setupStackTable at h
  split at h
  next => exact absurd h hfail
  next s₄ hframe =>
  obtain ⟨-, hframe⟩ := Option.ite_none_right_eq_some.mp hframe
  cases hframe
  cases h
  split
  next hq =>
    refine ⟨{ e with writable := true, isLoaded := true }, ?_, rfl⟩
    simp [frameTableSetAux, hq]
  next hq => simp [frameTableSetAux, hq, h₃ page hq]

end

/-- The table after an accepted load is what the headers prescribe exactly if
    no two headers prescribe different entries for one page, and none has the
    page of the stack. -/
theorem load_matches_headers_iff (s s' : State) (pid : Pid) (file : FileId)
    (malloc : PageNo → Bool) (a : Allocs) (hempty : ∀ page, s.spte pid page = none)
    (hload : load pid file malloc a s = some s') :
    (∀ ph ∈ loadHeaders (s.files file).contents, ∀ page e,
      ph.prescribes file page = some e → s'.spte pid page = some e) ↔
    (∀ ph ∈ loadHeaders (s.files file).contents, ∀ ph' ∈ loadHeaders (s.files file).contents,
      ∀ page e e', ph.prescribes file page = some e → ph'.prescribes file page = some e' → e = e') ∧
    ∀ ph ∈ loadHeaders (s.files file).contents, ph.prescribes file stackPage = none := by
  simp only [load] at hload
  iterate 7 obtain ⟨-, hload⟩ := Option.ite_none_left_eq_some.mp hload
  obtain ⟨s₁, hphdrs, hstack⟩ := Option.bind_eq_some_iff.mp hload
  obtain ⟨hstack, hrun⟩ := Option.filter_eq_some_iff.mp hstack
  have hspte := spte_setupStack hstack (of_decide_eq_true hrun)
  have hfirst : ∀ page, s₁.spte pid page =
      (loadHeaders (s.files file).contents).findSome? (·.prescribes file page) := by
    intro page
    rw [spte_loadPhdrs hphdrs, hempty, Option.none_or, loadHeaders]
  -- an entry that was not loaded yet is not the one of the stack
  have hnot : ∀ (ph : Elf32Phdr) page e, ph.prescribes file page = some e → e.isLoaded = false := by
    intro ph page e he
    obtain ⟨-, he⟩ := Option.ite_none_right_eq_some.mp he
    cases he
    rfl
  constructor
  · intro hmatch
    refine ⟨fun ph hph ph' hph' page e e' he he' => ?_, fun ph hph => ?_⟩
    · exact Option.some.inj ((hmatch ph hph page e he).symm.trans (hmatch ph' hph' page e' he'))
    · rw [Option.eq_none_iff_forall_ne_some]
      intro e he
      obtain ⟨x, hx, hloaded⟩ := (if_pos (rfl : stackPage = stackPage)).mp (hspte stackPage)
      rw [hmatch ph hph stackPage e he] at hx
      cases hx
      rw [hnot ph stackPage e he] at hloaded
      cases hloaded
  · rintro ⟨hagree, hnostack⟩ ph hph page e he
    have hpage : page ≠ stackPage := by
      rintro rfl
      rw [hnostack ph hph] at he
      cases he
    have hsame := hspte page
    rw [if_neg hpage, hfirst] at hsame
    rw [hsame]
    cases hfind : (loadHeaders (s.files file).contents).findSome? (·.prescribes file page) with
    | none =>
      rw [List.findSome?_eq_none_iff.mp hfind ph hph] at he
      cases he
    | some e' =>
      obtain ⟨ph', hph', he'⟩ := List.exists_of_findSome?_eq_some hfind
      rw [hagree ph hph ph' hph' page e e' he he']

/-- A machine whose file 0 is an executable with a page for each second byte of
    its address and its flags. -/
def machineWith (phdrs : List (UInt8 × UInt8)) : State :=
  let ehdr := [0x7f, 0x45, 0x4c, 0x46, 1, 1, 1, 0, 0, 0, 0, 0, 0, 0, 0, 0, 2, 0, 3, 0, 1, 0, 0, 0,
    0, 0, 0, 0, 52, 0, 0, 0, 0, 0, 0, 0, 0, 0, 0, 0, 0, 0, 32, 0, .ofNat phdrs.length, 0,
    0, 0, 0, 0, 0, 0]
  let phdr := fun p : UInt8 × UInt8 => [1, 0, 0, 0, 0, 0, 0, 0, 0, p.1, 4, 8, 0, 0, 0, 0,
    16, 0, 0, 0, 16, 0, 0, 0, p.2, 0, 0, 0, 0, 0, 0, 0]
  { oneFrame 0 with files := fun _ => ⟨ehdr ++ phdrs.flatMap phdr, 0⟩ }

/-- A read-only page and a writable one. -/
def twoSegments : State := machineWith [(0x80, 4), (0x90, 6)]

theorem load_matches_headers_iff_two :
    ∃ s', load 1 0 (fun _ => true) granted twoSegments = some s' ∧
      s'.spte 1 0x8048 = some (.ofFile 0 0 16 4080 false) ∧
      s'.spte 1 0x8049 = some (.ofFile 0 0 16 4080 true) ∧
      ((∀ ph ∈ loadHeaders (twoSegments.files 0).contents, ∀ page e,
        ph.prescribes 0 page = some e → s'.spte 1 page = some e) ↔
      (∀ ph ∈ loadHeaders (twoSegments.files 0).contents,
        ∀ ph' ∈ loadHeaders (twoSegments.files 0).contents, ∀ page e e',
        ph.prescribes 0 page = some e → ph'.prescribes 0 page = some e' → e = e') ∧
      ∀ ph ∈ loadHeaders (twoSegments.files 0).contents, ph.prescribes 0 stackPage = none) := by
  have hload : (load 1 0 (fun _ => true) granted twoSegments).map
      (fun s => (s.spte 1 0x8048, s.spte 1 0x8049)) =
      some (some (.ofFile 0 0 16 4080 false), some (.ofFile 0 0 16 4080 true)) := by
    decide +kernel
  obtain ⟨s', hs', hspte⟩ := Option.map_eq_some_iff.mp hload
  exact ⟨s', hs', congrArg Prod.fst hspte, congrArg Prod.snd hspte,
    load_matches_headers_iff _ _ _ _ _ _ (fun _ => rfl) hs'⟩

/-- Two segments claim one page, the second one writable: the load is accepted,
    and the page is read-only. -/
theorem overlapping_segments_accepted :
    ∃ s', load 1 0 (fun _ => true) granted (machineWith [(0x80, 4), (0x80, 6)]) = some s' ∧
      ∃ ph ∈ loadHeaders ((machineWith [(0x80, 4), (0x80, 6)]).files 0).contents, ∃ page e,
        ph.prescribes 0 page = some e ∧ e.writable = true ∧
        s'.spte 1 page = some { e with writable := false } := by
  have hload : (load 1 0 (fun _ => true) granted (machineWith [(0x80, 4), (0x80, 6)])).map (·.spte 1 0x8048) =
      some (some (.ofFile 0 0 16 4080 false)) := by
    decide +kernel
  obtain ⟨s', hs', hspte⟩ := Option.map_eq_some_iff.mp hload
  exact ⟨s', hs', ⟨1, 0, 0x8048000, 16, 16, 6⟩, by decide +kernel, 0x8048,
    .ofFile 0 0 16 4080 true, by decide +kernel, rfl, hspte⟩

end Pintos.Vm.Elf
