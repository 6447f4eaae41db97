/-
  Pintos.Vm.WriteBack

  What becomes of a mapped file.  A mapping of the file stands for a list of
  bytes: the contents of the file when it was mapped, changed by the stores of
  its owner.  Whatever faults, evictions and system calls happen, in whatever
  order, loads see these bytes; and when the mapping ends, by `munmap` or by
  the exit of its owner, they are the contents of the file, and no page of the
  mapping is left anywhere.

  The invariant says where each byte is.  A page that is present has it in its
  frame, and a page that is not, or that is not dirty, has it in the file.
-/

import Pintos.Vm.Unmap

namespace Pintos.Vm

open Pintos.Base Pintos.Lib

/-! ## The mapping as a list of bytes -/

/-- Page `j` of a mapping; addresses have 32 bits. -/
def mappingPage (m : MemoryMapping) (j : Nat) : PageNo := (m.userVaddr + j) % 2 ^ 20

/-- Where an address is in the mapping; beyond its length if it is not. -/
def mappedOffset (m : MemoryMapping) (addr : Nat) : Nat :=
  (addr + 2 ^ 32 - m.userVaddr * PGSIZE) % 2 ^ 32

/-- The pages of a mapping of `pid`. -/
def Own (pid : Pid) (m : MemoryMapping) : Pages := fun q r =>
  q = pid ∧ ∃ j < mappingPages m.length, r = mappingPage m j

/-- The page table entry that byte `i` of a mapping is reached through. -/
def mappedPte (s : State) (pid : Pid) (m : MemoryMapping) (i : Nat) : Pte :=
  s.pte pid (mappingPage m (i / PGSIZE))

/-- The bytes of the mapping are `w`, and its first `d` pages have been
    unmapped. -/
structure Backed (pid : Pid) (m : MemoryMapping) (w : List UInt8) (d : Nat) (s : State) : Prop where
  bytes : w.length = m.length
  length : (s.files m.file).contents.length = m.length
  deny : (s.files m.file).denyWriteCnt = 0
  le : d ≤ mappingPages m.length
  gone : ∀ j < d, s.spte pid (mappingPage m j) = none
  entry : ∀ j, d ≤ j → j < mappingPages m.length →
    s.spte pid (mappingPage m j) =
      some { mappingEntry m (j * PGSIZE) with isLoaded := (s.pte pid (mappingPage m j)).present }
  sole : ∀ r e, s.spte pid r = some e → e.mapping = some m →
    ∃ j, d ≤ j ∧ j < mappingPages m.length ∧ r = mappingPage m j
  frame : ∀ i < m.length, d ≤ i / PGSIZE → (mappedPte s pid m i).present = true →
    w[i]? = some (s.mem (mappedPte s pid m i).frame (i % PGSIZE))
  file : ∀ i < m.length,
    (d ≤ i / PGSIZE → (mappedPte s pid m i).present = true → (mappedPte s pid m i).dirty = false) →
    (s.files m.file).contents[i]? = w[i]?

/-- A dirty page of a mapping of the file belongs to this mapping. -/
def OthersClean (pid : Pid) (m : MemoryMapping) (s : State) : Prop :=
  ∀ q r e m', s.spte q r = some e → e.mapping = some m' → m'.file = m.file →
    (s.pte q r).present = true → (s.pte q r).dirty = true → q = pid ∧ m' = m

variable {pid q : Pid} {m m' : MemoryMapping} {w : List UInt8} {d j : Nat} {s s' : State}
  {page : PageNo} {k : Frame}

/-! ## Pages and bytes -/

theorem div_lt_mappingPages {length i : Nat} (h : i < length) : i / PGSIZE < mappingPages length := by
  simp only [mappingPages, PGSIZE]
  omega

theorem nextPage_mappingPage (m : MemoryMapping) (j : Nat) :
    nextPage (mappingPage m j) = mappingPage m (j + 1) := by
  rw [nextPage, mappingPage, Nat.mod_add_mod, Nat.add_assoc]
  rfl

/-- The bytes of page `j` that the file has. -/
theorem lt_pageReadBytes_iff {length off : Nat} :
    off < pageReadBytes length (j * PGSIZE) ↔ off < PGSIZE ∧ j * PGSIZE + off < length := by
  simp only [pageReadBytes]
  split <;> omega

/-- The next page of the loops over a mapping is where the file offset has
    moved to. -/
theorem add_pageReadBytes {length : Nat} (h : j + 1 < mappingPages length) :
    j * PGSIZE + pageReadBytes length (j * PGSIZE) = (j + 1) * PGSIZE := by
  simp only [mappingPages, PGSIZE] at h
  simp only [pageReadBytes, PGSIZE]
  split <;> omega

namespace Backed

section

variable (h : Backed pid m w d s)

include h

/-- Different pages of the mapping have different numbers. -/
theorem page_inj {i : Nat} (hi : d ≤ i) (hin : i < mappingPages m.length)
    (hj : d ≤ j) (hjn : j < mappingPages m.length) (heq : mappingPage m i = mappingPage m j) :
    i = j := by
  have hentry := h.entry i hi hin
  rw [heq, h.entry j hj hjn] at hentry
  have hofs : j * PGSIZE = i * PGSIZE :=
    congrArg SupPageTableEntry.ofs (Option.some.inj hentry)
  simp only [PGSIZE] at hofs
  omega

/-- The page of a byte. -/
theorem mappedPage_eq_iff {i : Nat} (hi : i < m.length)
    (hd : d ≤ i / PGSIZE) (hj : d ≤ j) (hjn : j < mappingPages m.length) :
    mappingPage m (i / PGSIZE) = mappingPage m j ↔ i / PGSIZE = j :=
  ⟨fun heq => h.page_inj hd (div_lt_mappingPages hi) hj hjn heq, fun heq => by rw [heq]⟩

/-- A step that touches neither the pages nor the file. -/
theorem apart (ha : Apart (Own pid m) {m.file} s s')
    (hsole : ∀ r e, s'.spte pid r = some e → e.mapping = some m →
      ∃ e₀, s.spte pid r = some e₀ ∧ e₀.mapping = some m) : Backed pid m w d s' := by
  have hown : ∀ j < mappingPages m.length, Own pid m pid (mappingPage m j) :=
    fun j hj => ⟨rfl, j, hj, rfl⟩
  have hfile : s'.files m.file = s.files m.file := ha.files _ rfl
  have hpte : ∀ i < m.length, mappedPte s' pid m i = mappedPte s pid m i :=
    fun i hi => ha.pte pid _ (hown _ (div_lt_mappingPages hi))
  constructor
  case bytes => exact h.bytes
  case length => rw [hfile]; exact h.length
  case deny => rw [hfile]; exact h.deny
  case le => exact h.le
  case gone =>
    intro j hj
    rw [ha.spte pid _ (hown j (Nat.lt_of_lt_of_le hj h.le))]
    exact h.gone j hj
  case entry =>
    intro j hj hjn
    rw [ha.spte pid _ (hown j hjn), ha.pte pid _ (hown j hjn)]
    exact h.entry j hj hjn
  case sole =>
    intro r e he hm
    obtain ⟨e₀, he₀, hm₀⟩ := hsole r e he hm
    exact h.sole r e₀ he₀ hm₀
  case frame =>
    intro i hi hd hp
    rw [hpte i hi] at hp ⊢
    have hmem : s'.mem (mappedPte s pid m i).frame = s.mem (mappedPte s pid m i).frame :=
      ha.mem pid _ (hown _ (div_lt_mappingPages hi)) hp
    rw [hmem]
    exact h.frame i hi hd hp
  case file =>
    intro i hi hclean
    rw [hpte i hi] at hclean
    rw [hfile]
    exact h.file i hi hclean

theorem quiet (hq : Quiet (Own pid m) {m.file} s s') :
    Backed pid m w d s' :=
  h.apart hq.toApart fun r e he hm => hq.mapped pid r e m he hm

/-- The contents of the file may become the bytes of the mapping anywhere. -/
theorem setContents {l : List UInt8} (hlen : l.length = m.length)
    (hl : ∀ i < m.length, l[i]? = w[i]? ∨ l[i]? = (s.files m.file).contents[i]?) :
    Backed pid m w d (s.setFile m.file { s.files m.file with contents := l }) where
  bytes := h.bytes
  length := by simp [State.setFile, hlen]
  deny := by simp [State.setFile, h.deny]
  le := h.le
  gone := h.gone
  entry := h.entry
  sole := h.sole
  frame := h.frame
  file i hi hclean := by
    have hget : ((s.setFile m.file { s.files m.file with contents := l }).files m.file).contents =
        l := by simp [State.setFile]
    rw [hget]
    rcases hl i hi with hc | hf
    · exact hc
    · rw [hf]
      exact h.file i hi hclean

/-- Writing a page back puts its bytes into the file and changes nothing
    else. -/
theorem writeBack (hj : d ≤ j) (hjn : j < mappingPages m.length)
    (hp : (s.pte pid (mappingPage m j)).present = true) (grow : Bool) :
    ∃ l, fileWriteAt s m.file
        ((s.mem (s.pte pid (mappingPage m j)).frame).bytes (pageReadBytes m.length (j * PGSIZE)))
        (j * PGSIZE) grow =
          (pageReadBytes m.length (j * PGSIZE),
            s.setFile m.file { s.files m.file with contents := l }) ∧
      l.length = m.length ∧
      ∀ i < m.length,
        l[i]? = if i / PGSIZE = j then w[i]? else (s.files m.file).contents[i]? := by
  have hend : j * PGSIZE + pageReadBytes m.length (j * PGSIZE) ≤ m.length := by
    simp only [mappingPages, PGSIZE] at hjn
    simp only [pageReadBytes, PGSIZE]
    split <;> omega
  refine ⟨overwrite 0 (s.files m.file).contents (j * PGSIZE)
    ((s.mem (s.pte pid (mappingPage m j)).frame).bytes (pageReadBytes m.length (j * PGSIZE))),
    ?_, ?_, ?_⟩
  · rw [fileWriteAt, if_neg (by simp [h.deny]), if_pos, PageData.bytes_length]
    left
    rw [PageData.bytes_length, h.length]
    exact hend
  · rw [overwrite_length, PageData.bytes_length, h.length]
    exact Nat.max_eq_left hend
  · intro i hi
    rw [overwrite_getElem?, PageData.bytes_length, h.length, if_pos hi]
    by_cases hij : i / PGSIZE = j
    · have hoff : i - j * PGSIZE < pageReadBytes m.length (j * PGSIZE) := by
        rw [lt_pageReadBytes_iff]
        simp only [PGSIZE] at hij ⊢
        omega
      have hmod : i - j * PGSIZE = i % PGSIZE := by
        simp only [PGSIZE] at hij ⊢
        omega
      have hpi : (mappedPte s pid m i).present = true := by
        rw [mappedPte, hij]
        exact hp
      have hframe := h.frame i hi (by omega) hpi
      rw [mappedPte, hij] at hframe
      have hin : ¬ i < j * PGSIZE ∧ i < j * PGSIZE + pageReadBytes m.length (j * PGSIZE) := by
        simp only [PGSIZE] at hij hoff ⊢
        omega
      rw [if_neg hin.1, if_pos hin.2, if_pos hij, PageData.bytes_getElem?, if_pos hoff, hmod,
        hframe]
    · -- a byte of another page is outside the window
      rw [if_neg hij]
      split
      · rfl
      · rename_i hge
        have hle := pageReadBytes_le m.length (j * PGSIZE)
        have hend : j * PGSIZE + pageReadBytes m.length (j * PGSIZE) ≤ (j + 1) * PGSIZE := by
          rw [Nat.succ_mul]
          exact Nat.add_le_add_left hle _
        have hout : ¬ i < j * PGSIZE + pageReadBytes m.length (j * PGSIZE) := fun hlt =>
          hij (Nat.div_eq_of_lt_le (Nat.le_of_not_lt hge) (Nat.lt_of_lt_of_le hlt hend))
        rw [if_neg hout]

end

/-- The page table entry of a page changes while the file has its bytes. -/
theorem setPage (h : Backed pid m w 0 s) (hjn : j < mappingPages m.length) {t : Pte}
    (hfile : ∀ i < m.length, i / PGSIZE = j → (s.files m.file).contents[i]? = w[i]?)
    (hframe : t.present = true → ∀ i < m.length, i / PGSIZE = j →
      (s.files m.file).contents[i]? = some (s.mem t.frame (i % PGSIZE)))
    (hspte : ∀ r, s'.spte pid r = if r = mappingPage m j then
      some { mappingEntry m (j * PGSIZE) with isLoaded := t.present } else s.spte pid r)
    (hpte : ∀ r, s'.pte pid r = if r = mappingPage m j then t else s.pte pid r)
    (hmem : s'.mem = s.mem) (hfiles : s'.files = s.files) : Backed pid m w 0 s' := by
  have hpage : ∀ i < m.length, mappedPte s' pid m i =
      if i / PGSIZE = j then t else mappedPte s pid m i := by
    intro i hi
    rw [mappedPte, hpte, mappedPte]
    simp only [h.mappedPage_eq_iff hi (Nat.zero_le _) (Nat.zero_le _) hjn]
  constructor
  case bytes => exact h.bytes
  case length => rw [hfiles]; exact h.length
  case deny => rw [hfiles]; exact h.deny
  case le => exact h.le
  case gone => exact fun j hj => absurd hj (Nat.not_lt_zero j)
  case entry =>
    intro i _ hin
    rw [hspte, hpte]
    by_cases hij : mappingPage m i = mappingPage m j
    · obtain rfl := h.page_inj (Nat.zero_le _) hin (Nat.zero_le _) hjn hij
      rw [if_pos rfl, if_pos rfl]
    · rw [if_neg hij, if_neg hij]
      exact h.entry i (Nat.zero_le _) hin
  case sole =>
    intro r e he hm
    rw [hspte] at he
    split at he
    · rename_i hr
      exact ⟨j, Nat.zero_le _, hjn, hr⟩
    · exact h.sole r e he hm
  case frame =>
    intro i hi hd hp
    rw [hpage i hi] at hp ⊢
    rw [hmem]
    split at hp
    · rename_i hij
      rw [if_pos hij, ← hfile i hi hij]
      exact hframe hp i hi hij
    · rename_i hij
      rw [if_neg hij]
      exact h.frame i hi hd hp
  case file =>
    intro i hi hclean
    rw [hfiles]
    by_cases hij : i / PGSIZE = j
    · exact hfile i hi hij
    · rw [hpage i hi, if_neg hij] at hclean
      exact h.file i hi hclean

/-- A page is evicted once the file has its bytes. -/
theorem unload (h : Backed pid m w 0 s) (hjn : j < mappingPages m.length)
    (hfile : ∀ i < m.length, i / PGSIZE = j → (s.files m.file).contents[i]? = w[i]?)
    (l : List FrameTableEntry) :
    Backed pid m w 0 (s.unmapFrame l pid (mappingPage m j)
      (some { mappingEntry m (j * PGSIZE) with isLoaded := false })) := by
  refine h.setPage hjn (t := { s.pte pid (mappingPage m j) with present := false }) hfile ?_
    (fun r => ?_) (fun r => ?_) rfl rfl
  · simp
  · simp
  · simp

/-- A page is installed with what the file has. -/
theorem load (h : Backed pid m w 0 s) (hjn : j < mappingPages m.length)
    (hp : (s.pte pid (mappingPage m j)).present = false)
    (hdata : ∀ i < m.length, i / PGSIZE = j →
      (s.files m.file).contents[i]? = some (s.mem k (i % PGSIZE))) :
    Backed pid m w 0 (s.mapFrame pid (mappingPage m j) k
      { mappingEntry m (j * PGSIZE) with isLoaded := true }) := by
  refine h.setPage hjn (t := ⟨true, k, (mappingEntry m (j * PGSIZE)).writable, false⟩)
    (fun i hi hij => h.file i hi fun _ hpres => ?_) (fun _ => hdata) (fun r => ?_) (fun r => ?_)
    rfl rfl
  · rw [mappedPte, hij, hp] at hpres
    cases hpres
  · simp
  · simp

/-- The next page is unmapped once the file has its bytes. -/
theorem drop (h : Backed pid m w d s) (hd : d < mappingPages m.length)
    (hfile : ∀ i < m.length, i / PGSIZE = d → (s.files m.file).contents[i]? = w[i]?)
    (hspte : ∀ r, s'.spte pid r = if r = mappingPage m d then none else s.spte pid r)
    (hpte : ∀ r ≠ mappingPage m d, s'.pte pid r = s.pte pid r)
    (hmem : s'.mem = s.mem) (hfiles : s'.files = s.files) : Backed pid m w (d + 1) s' := by
  have hne : ∀ j, d + 1 ≤ j → j < mappingPages m.length → mappingPage m j ≠ mappingPage m d := by
    intro j hj hjn heq
    have := h.page_inj (by omega) hjn (Nat.le_refl d) hd heq
    omega
  constructor
  case bytes => exact h.bytes
  case length => rw [hfiles]; exact h.length
  case deny => rw [hfiles]; exact h.deny
  case le => exact hd
  case gone =>
    intro j hj
    rw [hspte]
    split
    · rfl
    · rename_i hjd
      refine h.gone j (Nat.lt_of_le_of_ne (by omega) ?_)
      rintro rfl
      exact hjd rfl
  case entry =>
    intro j hj hjn
    rw [hspte, if_neg (hne j hj hjn), hpte _ (hne j hj hjn)]
    exact h.entry j (by omega) hjn
  case sole =>
    intro r e he hm
    rw [hspte] at he
    split at he
    · cases he
    · rename_i hr
      obtain ⟨j, hj, hjn, rfl⟩ := h.sole r e he hm
      refine ⟨j, Nat.lt_of_le_of_ne hj ?_, hjn, rfl⟩
      rintro rfl
      exact hr rfl
  case frame =>
    intro i hi hdi hp
    have heq : mappedPte s' pid m i = mappedPte s pid m i :=
      hpte _ (hne _ hdi (div_lt_mappingPages hi))
    rw [heq] at hp ⊢
    rw [hmem]
    exact h.frame i hi (by omega) hp
  case file =>
    intro i hi hclean
    rw [hfiles]
    by_cases hid : i / PGSIZE = d
    · exact hfile i hi hid
    · refine h.file i hi fun hdi hp => ?_
      have heq : mappedPte s' pid m i = mappedPte s pid m i :=
        hpte _ (hne _ (by omega) (div_lt_mappingPages hi))
      rw [heq] at hclean
      exact hclean (by omega) hp

/-- When all pages are unmapped the file has the bytes of the mapping. -/
theorem contents_eq (h : Backed pid m w (mappingPages m.length) s) :
    (s.files m.file).contents = w := by
  apply List.ext_getElem?
  intro i
  by_cases hi : i < m.length
  · refine h.file i hi fun hd => ?_
    have := div_lt_mappingPages hi
    omega
  · rw [List.getElem?_eq_none (by rw [h.length]; omega),
      List.getElem?_eq_none (by rw [h.bytes]; omega)]

end Backed

end Pintos.Vm
