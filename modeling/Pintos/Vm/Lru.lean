/-
  Pintos.Vm.Lru

  `swap_evict_frame` (vm/swap.c) with the victim that `frame_table_pop_lru`
  (vm/frame_table.c) chooses, and what an eviction that frees no frame leaves
  behind.

  The choice reads and writes two more fields: the accessed bits of the page
  tables and the access times of the supplemental entries.  `Accesses` keeps
  them beside the state.  `file_write_at` is a parameter here: it may write any
  number of bytes and leave the file in any state.
-/

import Pintos.Vm.SwapSlots

namespace Pintos.Vm

open Pintos.Base Pintos.Lib

/-- The accessed bits of the page tables and the `access_time` fields of the
    supplemental entries. -/
structure Accesses where
  accessed : Pid → PageNo → Bool
  accessTime : Pid → PageNo → Nat

namespace Accesses

/-- `pagedir_set_accessed (..., false)` and the assignment to `access_time`. -/
def touch (acc : Accesses) (pid : Pid) (page : PageNo) (now : Nat) : Accesses where
  accessed := fun p r => if p = pid ∧ r = page then false else acc.accessed p r
  accessTime := fun p r => if p = pid ∧ r = page then now else acc.accessTime p r

/-- `aux->access_time` of a frame table entry. -/
def timeOf (acc : Accesses) (fte : FrameTableEntry) : Nat :=
  (fte.aux.map fun page => acc.accessTime fte.owner page).getD 0

/-- `pagedir_is_accessed` for the page of a frame table entry. -/
def isAccessed (acc : Accesses) (fte : FrameTableEntry) : Bool :=
  fte.aux.any fun page => acc.accessed fte.owner page

end Accesses

/-- The inner loop of `frame_table_pop_lru` over the entries from index `i` on;
    `best` is `fte`, with its index. -/
def lruPass (s : State) (now : Nat) :
    List FrameTableEntry → Nat → Accesses → Option (Nat × FrameTableEntry) →
      Accesses × Option (Nat × FrameTableEntry)
  | [], _, acc, best => (acc, best)
  | aux :: rest, i, acc, best =>
    if !evictable s aux then lruPass s now rest (i + 1) acc best
    else if acc.isAccessed aux then
      lruPass s now rest (i + 1) (acc.touch aux.owner (aux.aux.getD 0) now) best
    else if best.all fun fte => acc.timeOf aux < acc.timeOf fte.2 then
      lruPass s now rest (i + 1) acc (some (i, aux))
    else lruPass s now rest (i + 1) acc best

/-- `frame_table_pop_lru`: the entry it returns, with its index in the table.
    The second pass runs if the first finds nothing. -/
def frameTablePopLru (s : State) (now : Nat) (acc : Accesses) :
    Accesses × Option (Nat × FrameTableEntry) :=
  match lruPass s now s.frameTable 0 acc none with
  | (acc, none) => lruPass s now s.frameTable 0 acc none
  | (acc, some fte) => (acc, some fte)

/-- What `file_write_at` makes of a file: the number of bytes written, and the
    file. -/
abbrev FileWrite := File → List UInt8 → Nat → Nat × File

/-- `swap_evict_frame` from the read of the dirty bit on. -/
def evictEntryWith (write : FileWrite) (s : State) (fte : FrameTableEntry) (page : PageNo)
    (e : SupPageTableEntry) : Option (State × Option Frame) :=
  let dirty := pagedirIsDirty s fte.owner page
  if e.source = .fileBacked then
    let useSwap := e.mapping.isNone && e.writable
    if e.mapping.isSome && dirty then
      let (written, file) := write (s.files e.file) ((s.mem fte.frame).bytes e.readBytes) e.ofs
      let s := s.setFile e.file file
      if written ≠ e.readBytes then some (s.setFrameTable (s.frameTable ++ [fte]), none)
      else evictToFile s fte page e
    else if useSwap then evictToSwap s fte page e
    else evictToFile s fte page e
  else evictToSwap s fte page e

/-- `swap_evict_frame`: the state, the accessed bits and times, and the frame,
    or `none` where an assertion fails. -/
def swapEvictLru (write : FileWrite) (s : State) (now : Nat) (acc : Accesses) :
    Option (State × Accesses × Option Frame) :=
  match frameTablePopLru s now acc with
  | (acc, none) => some (s, acc, none)
  | (acc, some (i, fte)) =>
    let s := s.setFrameTable (s.frameTable.eraseIdx i)
    match fte.aux.bind fun page => (s.spte fte.owner page).map fun e => (page, e) with
    | none => some (s, acc, none)
    | some (page, e) => (evictEntryWith write s fte page e).map fun r => (r.1, acc, r.2)

variable {s s' : State} {now i : Nat} {acc : Accesses} {fte : FrameTableEntry} {page : PageNo}
  {e : SupPageTableEntry} {write : FileWrite} {k : Option Frame}

/-! ## The victim -/

/-- A pass returns the entry it started with or an evictable one it has seen. -/
theorem lruPass_mem {l : List FrameTableEntry} {n : Nat} {best : Option (Nat × FrameTableEntry)}
    (h : (lruPass s now l n acc best).2 = some (i, fte)) :
    best = some (i, fte) ∨ n ≤ i ∧ l[i - n]? = some fte ∧ evictable s fte = true := by
  induction l generalizing n acc best with
  | nil => exact Or.inl h
  | cons aux rest ih =>
    -- an entry of the rest is one of the whole list
    have hrest : ∀ {acc best}, (lruPass s now rest (n + 1) acc best).2 = some (i, fte) →
        best = some (i, fte) ∨
          n ≤ i ∧ (aux :: rest)[i - n]? = some fte ∧ evictable s fte = true := by
      intro acc best h
      rcases ih h with hbest | ⟨hle, hget, hev⟩
      · exact Or.inl hbest
      · refine Or.inr ⟨by omega, ?_, hev⟩
        rw [show i - n = i - (n + 1) + 1 by omega, List.getElem?_cons_succ]
        exact hget
    simp only [lruPass] at h
    split at h
    · exact hrest h
    rename_i hev
    split at h
    · exact hrest h
    split at h
    · rcases hrest h with hnew | hfound
      · cases hnew
        exact Or.inr ⟨Nat.le_refl _, by simp, by simpa using hev⟩
      · exact Or.inr hfound
    · exact hrest h

/-- `frame_table_pop_lru` returns an evictable entry of the table. -/
theorem frameTablePopLru_mem (h : (frameTablePopLru s now acc).2 = some (i, fte)) :
    s.frameTable[i]? = some fte ∧ evictable s fte = true := by
  have hpass : ∀ {acc}, (lruPass s now s.frameTable 0 acc none).2 = some (i, fte) →
      s.frameTable[i]? = some fte ∧ evictable s fte = true := by
    intro acc h
    rcases lruPass_mem h with hc | ⟨-, hget, hev⟩
    · cases hc
    · exact ⟨hget, hev⟩
  simp only [frameTablePopLru] at h
  split at h
  · exact hpass h
  · rename_i acc' best hfirst
    have hbest : (lruPass s now s.frameTable 0 acc none).2 = some (i, fte) := by
      rw [hfirst]
      exact h
    exact hpass hbest

/-- Some evictable entry of `l` points to the page. -/
def Scanned (s : State) (l : List FrameTableEntry) (pid : Pid) (page : PageNo) : Bool :=
  l.any fun fte => evictable s fte && fte.owner = pid && fte.aux = some page

/-- The bits and times after the entries of `l` have been looked at: the
    accessed pages among them are touched. -/
def Accesses.after (acc : Accesses) (s : State) (now : Nat) (l : List FrameTableEntry) :
    Accesses where
  accessed := fun p r => acc.accessed p r && !Scanned s l p r
  accessTime := fun p r => if acc.accessed p r && Scanned s l p r then now else acc.accessTime p r

/-- The entry may be chosen in the first pass. -/
def Clear (s : State) (acc : Accesses) (fte : FrameTableEntry) : Prop :=
  evictable s fte = true ∧ acc.isAccessed fte = false

/-- `fte` is the first entry with the least time among the clear ones of
    `l₁ ++ fte :: l₂`. -/
structure FirstLeast (s : State) (acc : Accesses) (l₁ : List FrameTableEntry)
    (fte : FrameTableEntry) (l₂ : List FrameTableEntry) : Prop where
  clear : Clear s acc fte
  before : ∀ x ∈ l₁, Clear s acc x → acc.timeOf fte < acc.timeOf x
  behind : ∀ x ∈ l₂, Clear s acc x → acc.timeOf fte ≤ acc.timeOf x

/-- `best` is the right choice among the entries seen so far. -/
def Best (s : State) (acc : Accesses) (seen : List FrameTableEntry) :
    Option (Nat × FrameTableEntry) → Prop
  | none => ∀ x ∈ seen, ¬ Clear s acc x
  | some (i, fte) => ∃ l₁ l₂, seen = l₁ ++ fte :: l₂ ∧ i = l₁.length ∧ FirstLeast s acc l₁ fte l₂

theorem FirstLeast.le {l₁ l₂ : List FrameTableEntry} {x : FrameTableEntry}
    (h : FirstLeast s acc l₁ fte l₂) (hx : x ∈ l₁ ++ fte :: l₂) (hcl : Clear s acc x) :
    acc.timeOf fte ≤ acc.timeOf x := by
  rcases List.mem_append.mp hx with hx | hx
  · exact Nat.le_of_lt (h.before x hx hcl)
  rcases List.mem_cons.mp hx with rfl | hx
  · exact Nat.le_refl _
  · exact h.behind x hx hcl

/-- No two evictable entries point to the same supplemental entry. -/
def DistinctPages (s : State) (l : List FrameTableEntry) : Prop :=
  l.Pairwise fun x y => evictable s x = true → evictable s y = true →
    ¬ (x.owner = y.owner ∧ x.aux = y.aux)

/-- No page that was accessed has two evictable entries. -/
def DistinctAccessed (s : State) (acc : Accesses) (l : List FrameTableEntry) : Prop :=
  l.Pairwise fun x y => evictable s x = true → evictable s y = true →
    acc.isAccessed x = true → ¬ (x.owner = y.owner ∧ x.aux = y.aux)

section Pass

variable {seen l : List FrameTableEntry} {best : Option (Nat × FrameTableEntry)}
  {aux : FrameTableEntry}

theorem Accesses.after_nil : acc.after s now [] = acc := by
  simp [Accesses.after, Scanned]

theorem evictable.aux_eq (h : evictable s fte = true) : ∃ page, fte.aux = some page := by
  simp only [evictable, Bool.and_eq_true, Option.any_eq_true, Option.bind_eq_some_iff] at h
  obtain ⟨-, -, ⟨page, hpage, -⟩, -⟩ := h
  exact ⟨page, hpage⟩

/-- A page that was not accessed keeps its time. -/
theorem Accesses.timeOf_after (h : acc.isAccessed aux = false) :
    (acc.after s now l).timeOf aux = acc.timeOf aux := by
  cases hpage : aux.aux with
  | none => simp [timeOf, hpage]
  | some page =>
    have hclear : acc.accessed aux.owner page = false := by simpa [isAccessed, hpage] using h
    simp [timeOf, hpage, after, hclear]

/-- A page keeps its bit while no entry for it has been looked at. -/
theorem Accesses.isAccessed_after (h : ∀ x ∈ l, evictable s x = true →
    acc.isAccessed x = true → ¬ (x.owner = aux.owner ∧ x.aux = aux.aux)) :
    (acc.after s now l).isAccessed aux = acc.isAccessed aux := by
  cases hpage : aux.aux with
  | none => simp [isAccessed, hpage]
  | some page =>
    simp only [isAccessed, hpage, Option.any_some, after, Bool.and_eq_left_iff_imp,
      Bool.not_eq_true', Scanned, List.any_eq_false, Bool.and_eq_true, decide_eq_true_eq]
    rintro hacc x hx ⟨⟨hev, howner⟩, haux⟩
    refine h x hx hev ?_ ⟨howner, haux.trans hpage.symm⟩
    simpa [isAccessed, haux, howner] using hacc

/-- A page that has been looked at is clear. -/
theorem Accesses.isAccessed_after_mem (hmem : aux ∈ l) (hev : evictable s aux = true) :
    (acc.after s now l).isAccessed aux = false := by
  obtain ⟨page, hpage⟩ := evictable.aux_eq hev
  have hlisted : Scanned s l aux.owner page = true :=
    List.any_eq_true.mpr ⟨aux, hmem, by simp [hev, hpage]⟩
  simp [isAccessed, hpage, after, hlisted]

theorem Accesses.timeOf_after_mem (hmem : aux ∈ l) (hev : evictable s aux = true)
    (hset : acc.isAccessed aux = true) : (acc.after s now l).timeOf aux = now := by
  obtain ⟨page, hpage⟩ := evictable.aux_eq hev
  have hlisted : Scanned s l aux.owner page = true :=
    List.any_eq_true.mpr ⟨aux, hmem, by simp [hev, hpage]⟩
  have hacc : acc.accessed aux.owner page = true := by simpa [isAccessed, hpage] using hset
  simp [timeOf, hpage, after, hlisted, hacc]

theorem Accesses.after_after : (acc.after s now l).after s now l = acc.after s now l := by
  simp [after, Bool.and_assoc]

/-- Looking at one more entry touches its page if the page was accessed. -/
theorem Accesses.after_concat :
    acc.after s now (seen ++ [aux]) =
      if evictable s aux && acc.isAccessed aux then
        (acc.after s now seen).touch aux.owner (aux.aux.getD 0) now
      else acc.after s now seen := by
  have hlisted : ∀ p r, Scanned s (seen ++ [aux]) p r =
      (Scanned s seen p r || (evictable s aux && aux.owner = p && aux.aux = some r)) := by
    simp [Scanned]
  cases hev : evictable s aux with
  | false => simp [after, hlisted, hev]
  | true =>
    obtain ⟨page, hpage⟩ := evictable.aux_eq hev
    have hacc : acc.isAccessed aux = acc.accessed aux.owner page := by simp [isAccessed, hpage]
    simp only [Bool.true_and, hacc, hpage, Option.getD_some]
    -- the page of the entry, and every other page
    have hsame : Scanned s (seen ++ [aux]) aux.owner page = true := by simp [hlisted, hev, hpage]
    have hother : ∀ {p r}, ¬ (p = aux.owner ∧ r = page) →
        Scanned s (seen ++ [aux]) p r = Scanned s seen p r := by
      intro p r hne
      have hne' : ¬ (aux.owner = p ∧ page = r) := fun hc => hne ⟨hc.1.symm, hc.2.symm⟩
      simpa [hlisted, hev, hpage] using fun h₁ h₂ => absurd ⟨h₁, h₂⟩ hne'
    split
    · rename_i hset
      simp only [after, touch, Accesses.mk.injEq]
      constructor <;> funext p r <;> by_cases hpr : p = aux.owner ∧ r = page
      · simp [hpr, hsame]
      · simp [hpr, hother hpr]
      · simp [hpr, hsame, hset]
      · simp [hpr, hother hpr]
    · rename_i hset
      simp only [after, Accesses.mk.injEq]
      constructor <;> funext p r <;> by_cases hpr : p = aux.owner ∧ r = page
      · simp [hpr, hset]
      · simp [hother hpr]
      · simp [hpr, hset]
      · simp [hother hpr]

/-- What one entry does to the choice. -/
theorem Best.concat (h : Best s acc seen best) (aux : FrameTableEntry) :
    Best s acc (seen ++ [aux]) (if evictable s aux && !acc.isAccessed aux &&
      (best.all fun x => acc.timeOf aux < acc.timeOf x.2) then some (seen.length, aux)
      else best) := by
  split
  · rename_i hnew
    simp only [Bool.and_eq_true, Bool.not_eq_true'] at hnew
    obtain ⟨⟨hev, hclear⟩, hlt⟩ := hnew
    refine ⟨seen, [], rfl, rfl, ⟨hev, hclear⟩, fun x hx hcl => ?_, fun x hx => by cases hx⟩
    cases best with
    | none => exact absurd hcl (h x hx)
    | some b =>
      obtain ⟨l₁, l₂, rfl, -, hb⟩ := h
      have hlt : acc.timeOf aux < acc.timeOf b.2 := by simpa using hlt
      exact Nat.lt_of_lt_of_le hlt (hb.le hx hcl)
  · rename_i hold
    cases best with
    | none =>
      intro x hx hcl
      rcases List.mem_append.mp hx with hx | hx
      · exact h x hx hcl
      · rw [List.mem_singleton.mp hx] at hcl
        exact hold (by simp [hcl.1, hcl.2])
    | some b =>
      obtain ⟨l₁, l₂, rfl, hi, hb⟩ := h
      refine ⟨l₁, l₂ ++ [aux], by simp, hi, hb.clear, hb.before, fun x hx hcl => ?_⟩
      rcases List.mem_append.mp hx with hx | hx
      · exact hb.behind x hx hcl
      · rw [List.mem_singleton.mp hx] at hcl ⊢
        by_contra hlt
        exact hold (by simpa [hcl.1, hcl.2] using hlt)

/-- A pass over `l` after `seen`: the entries make their choice with the bits
    and times from before the pass, unless an accessed page is listed twice. -/
theorem lruPass_eq (seen : List FrameTableEntry) (hd : DistinctAccessed s acc (seen ++ l))
    (hb : Best s acc seen best) :
    ∃ best', lruPass s now l seen.length (acc.after s now seen) best =
      (acc.after s now (seen ++ l), best') ∧ Best s acc (seen ++ l) best' := by
  induction l generalizing seen best with
  | nil => exact ⟨best, by simp [lruPass], by simpa using hb⟩
  | cons aux rest ih =>
    have hassoc : seen ++ aux :: rest = seen ++ [aux] ++ rest := by simp
    have hnext := ih (seen ++ [aux]) (hassoc ▸ hd) (hb.concat aux)
    rw [← hassoc, List.length_append, List.length_singleton, Accesses.after_concat] at hnext
    have hstep : lruPass s now (aux :: rest) seen.length (acc.after s now seen) best =
        lruPass s now rest (seen.length + 1)
          (if evictable s aux && acc.isAccessed aux then
            (acc.after s now seen).touch aux.owner (aux.aux.getD 0) now
          else acc.after s now seen)
          (if evictable s aux && !acc.isAccessed aux &&
            (best.all fun x => acc.timeOf aux < acc.timeOf x.2) then some (seen.length, aux)
          else best) := by
      by_cases hev : evictable s aux = true
      · have hbit : (acc.after s now seen).isAccessed aux = acc.isAccessed aux := by
          refine Accesses.isAccessed_after fun x hx hevx hset => ?_
          exact (List.pairwise_append.mp hd).2.2 x hx aux (by simp) hevx hev hset
        by_cases hset : acc.isAccessed aux = true
        · simp [lruPass, hev, hbit, hset]
        · have hset : acc.isAccessed aux = false := by simpa using hset
          have htime : (best.all fun x => (acc.after s now seen).timeOf aux <
              (acc.after s now seen).timeOf x.2) =
              best.all fun x => acc.timeOf aux < acc.timeOf x.2 := by
            cases best with
            | none => rfl
            | some b =>
              obtain ⟨l₁, l₂, -, -, hb⟩ := hb
              simp [Accesses.timeOf_after hset, Accesses.timeOf_after hb.clear.2]
          simp only [lruPass, hev, hbit, hset, htime, Bool.not_true, Bool.false_eq_true,
            if_false, Bool.and_false, Bool.not_false, Bool.and_true, Bool.true_and]
          split <;> rfl
      · simp [lruPass, hev]
    rw [hstep]
    exact hnext

/-- A pass over the whole table. -/
theorem lruPass_first (now : Nat) (acc : Accesses) (hd : DistinctAccessed s acc l) :
    ∃ best, lruPass s now l 0 acc none = (acc.after s now l, best) ∧ Best s acc l best := by
  have hpass : ∃ best, lruPass s now l 0 (acc.after s now []) none = (acc.after s now l, best) ∧
      Best s acc l best :=
    lruPass_eq [] hd fun x hx => by cases hx
  rwa [Accesses.after_nil] at hpass

end Pass

/-- Bits and times for which the given page is the oldest. -/
def oldest (pid : Pid) (page : PageNo) : Accesses where
  accessed := fun _ _ => false
  accessTime := fun p r => if p = pid ∧ r = page then 0 else 1

/-- What makes an entry evictable. -/
theorem evictable_iff : evictable s fte = true ↔ (s.procs fte.owner).phase ≠ .dead ∧
    ∃ page e, fte.aux = some page ∧ s.spte fte.owner page = some e ∧ e.isLoaded = true := by
  simp only [evictable, Bool.and_eq_true, decide_eq_true_eq, Option.any_eq_true,
    Option.bind_eq_some_iff]
  constructor
  · rintro ⟨hphase, e, ⟨page, hpage, he⟩, hload⟩
    exact ⟨hphase, page, e, hpage, he, hload⟩
  · rintro ⟨hphase, page, e, hpage, he, hload⟩
    exact ⟨hphase, e, ⟨page, hpage, he⟩, hload⟩

/-- Every evictable page can be the victim. -/
theorem frameTablePopLru_oldest (hmem : fte ∈ s.frameTable) (hev : evictable s fte = true)
    (hpage : fte.aux = some page) (now : Nat) :
    ∃ acc j x, frameTablePopLru s now (oldest fte.owner page) = (acc, some (j, x)) ∧
      x.owner = fte.owner ∧ x.aux = some page := by
  have hacc : ∀ x, (oldest fte.owner page).isAccessed x = false := by
    intro x
    cases hx : x.aux <;> simp [Accesses.isAccessed, oldest, hx]
  obtain ⟨best, hpass, hbest⟩ := lruPass_first (s := s) now (oldest fte.owner page)
    (l := s.frameTable) (List.pairwise_of_forall fun x y _ _ hset => by simp [hacc] at hset)
  cases best with
  | none => exact absurd ⟨hev, hacc fte⟩ (hbest fte hmem)
  | some b =>
    obtain ⟨l₁, l₂, heq, -, hleast⟩ := hbest
    refine ⟨_, b.1, b.2, by rw [frameTablePopLru, hpass], ?_⟩
    have hle : (oldest fte.owner page).timeOf b.2 ≤ (oldest fte.owner page).timeOf fte :=
      hleast.le (heq ▸ hmem) ⟨hev, hacc fte⟩
    obtain ⟨r, hr⟩ := evictable.aux_eq hleast.clear.1
    have hsame : b.2.owner = fte.owner ∧ r = page := by
      by_contra hne
      simp [Accesses.timeOf, oldest, hpage, hr, hne] at hle
    exact ⟨hsame.1, hsame.2 ▸ hr⟩

/-- `frame_table_pop_lru` on a table without two evictable entries for one accessed page.
    It returns nothing only if nothing is evictable.  Otherwise the entries
    before and behind the victim stay, in order, and the victim is the first of
    the oldest pages not accessed or, where all were, the first evictable one.
    The pages of evictable entries that were accessed are touched. -/
theorem frameTablePopLru_victim (hd : DistinctAccessed s acc s.frameTable) :
    ((frameTablePopLru s now acc).2 = none ↔ ∀ fte ∈ s.frameTable, evictable s fte = false) ∧
    (∀ i fte, (frameTablePopLru s now acc).2 = some (i, fte) →
      ∃ l₁ l₂, s.frameTable = l₁ ++ fte :: l₂ ∧ s.frameTable.eraseIdx i = l₁ ++ l₂ ∧
        evictable s fte = true ∧
        ((∃ x ∈ s.frameTable, Clear s acc x) → FirstLeast s acc l₁ fte l₂) ∧
        ((∀ x ∈ s.frameTable, ¬ Clear s acc x) → ∀ x ∈ l₁, evictable s x = false)) ∧
    (frameTablePopLru s now acc).1 = acc.after s now s.frameTable := by
  have herase : ∀ {i l₁ l₂} {fte : FrameTableEntry}, s.frameTable = l₁ ++ fte :: l₂ →
      i = l₁.length → s.frameTable.eraseIdx i = l₁ ++ l₂ := by
    rintro i l₁ l₂ fte heq rfl
    rw [heq, List.eraseIdx_append_of_length_le (Nat.le_refl _), Nat.sub_self]
    rfl
  obtain ⟨best, hfirst, hbest⟩ := lruPass_first now acc hd
  cases best with
  | some b =>
    obtain ⟨l₁, l₂, heq, hi, hleast⟩ := hbest
    have hmem : b.2 ∈ s.frameTable := by simp [heq]
    rw [frameTablePopLru, hfirst]
    refine ⟨?_, ?_, rfl⟩
    · refine iff_of_false (by simp) fun hno => ?_
      exact Bool.false_ne_true ((hno b.2 hmem).symm.trans hleast.clear.1)
    · rintro i fte ⟨rfl⟩
      exact ⟨l₁, l₂, heq, herase heq hi, hleast.clear.1, fun _ => hleast,
        fun hno => absurd hleast.clear (hno _ hmem)⟩
  | none =>
    -- every evictable page was accessed: the second pass finds the bits clear and the times equal
    have hd' : DistinctAccessed s (acc.after s now s.frameTable) s.frameTable := by
      refine List.Pairwise.imp_of_mem (fun {x y} hx _ _ hev _ hset => ?_) hd
      rw [Accesses.isAccessed_after_mem hx hev] at hset
      cases hset
    obtain ⟨best, hsecond, hbest'⟩ := lruPass_first now (acc.after s now s.frameTable) hd'
    have hset : ∀ x ∈ s.frameTable, evictable s x = true → acc.isAccessed x = true := by
      intro x hx hev
      by_contra hno
      exact hbest x hx ⟨hev, by simpa using hno⟩
    have hclear : ∀ x ∈ s.frameTable, evictable s x = true →
        Clear s (acc.after s now s.frameTable) x := fun x hx hev =>
      ⟨hev, Accesses.isAccessed_after_mem hx hev⟩
    rw [frameTablePopLru, hfirst]
    simp only [hsecond, Accesses.after_after]
    refine ⟨?_, ?_, trivial⟩
    · cases best with
      | none =>
        refine iff_of_true rfl fun x hx => ?_
        by_contra hno
        exact hbest' x hx (hclear x hx (by simpa using hno))
      | some b =>
        obtain ⟨l₁, l₂, heq, -, hleast⟩ := hbest'
        refine iff_of_false (by simp) fun hno => ?_
        have hmem : b.2 ∈ s.frameTable := by simp [heq]
        exact Bool.false_ne_true ((hno b.2 hmem).symm.trans hleast.clear.1)
    · rintro i fte rfl
      obtain ⟨l₁, l₂, heq, hi, hleast⟩ := hbest'
      refine ⟨l₁, l₂, heq, herase heq hi, hleast.clear.1, ?_, fun _ x hx => ?_⟩
      · rintro ⟨x, hx, hcl⟩
        exact absurd hcl (hbest x hx)
      · by_contra hno
        have hev : evictable s x = true := by simpa using hno
        have hmem : x ∈ s.frameTable := by simp [heq, hx]
        have hfte : fte ∈ s.frameTable := by simp [heq]
        have hlt := hleast.before x hx (hclear x hmem hev)
        rw [Accesses.timeOf_after_mem hmem hev (hset x hmem hev),
          Accesses.timeOf_after_mem hfte hleast.clear.1 (hset fte hfte hleast.clear.1)] at hlt
        exact Nat.lt_irrefl _ hlt

/-- The frame tables the pager builds have one entry for a page. -/
theorem distinctPages_of_reachable (h : system.Reachable s) : DistinctPages s s.frameTable := by
  have hframes := (Shape.of_reachable h).frames
  refine List.Nodup.pairwise_of_forall_ne hframes.nodup.of_map fun x hx y hy hne _ _ hsame => ?_
  obtain ⟨p, hp, -, hframe⟩ := hframes.table x hx
  obtain ⟨q, hq, -, hframe'⟩ := hframes.table y hy
  have hpq : p = q := Option.some.inj (hp.symm.trans (hsame.2.trans hq))
  rw [hsame.1, hpq, hframe'] at hframe
  exact hne (hframes.entry_unique hx hy hframe.symm)

/-- Two pages of a stack. -/
theorem distinctPages_of_reachable_stack : ∃ s x y, system.Reachable s ∧ s.frameTable = [x, y] ∧
    evictable s x = true ∧ evictable s y = true ∧ ¬ (x.owner = y.owner ∧ x.aux = y.aux) := by
  have hinit : system.start { oneFrame 1 with userPool := [false, false] } :=
    { initial_oneFrame 1 with userPool := by simp }
  obtain ⟨s, hs, hp⟩ := System.reachable_of_run (S := system) hinit
    (l := [.spawn 0 0, .setupStack 0 granted,
      .fault 0 ⟨0xBFFFE000, 0xBFFFE000, true, true⟩ true granted])
    (p := fun s => s.frameTable.length == 2 && s.frameTable.all (evictable s)) (by decide)
  simp only [Bool.and_eq_true, beq_iff_eq, List.length_eq_two] at hp
  obtain ⟨⟨x, y, hxy⟩, hev⟩ := hp
  have hd := distinctPages_of_reachable hs
  simp only [DistinctPages, hxy, List.all_cons, List.all_nil, Bool.and_true, Bool.and_eq_true,
    List.pairwise_cons, List.mem_singleton, forall_eq] at hd hev
  exact ⟨s, x, y, hs, hxy, hev.1, hev.2, hd.1 hev.1 hev.2⟩

/-- Two loaded pages of one process, in two frames. -/
def bothInMemory (p q : PageNo) : State :=
  { oneFrame 0 with
    procs := fun _ => { phase := .running, supPageTable := fun _ => some .fresh }
    frameTable := [⟨0, 0, some p⟩, ⟨1, 0, some q⟩] }

/-- Bits and times: both pages were accessed. -/
def allAccessed : Accesses := ⟨fun _ _ => true, fun _ _ => 0⟩

/-- Of two accessed pages the first one is the victim. -/
theorem frameTablePopLru_victim_two :
    DistinctAccessed (bothInMemory 5 6) allAccessed (bothInMemory 5 6).frameTable ∧
    (frameTablePopLru (bothInMemory 5 6) 1 allAccessed).2 = some (0, ⟨0, 0, some 5⟩) ∧
    (bothInMemory 5 6).frameTable.eraseIdx 0 = [⟨1, 0, some 6⟩] ∧
    evictable (bothInMemory 5 6) ⟨0, 0, some 5⟩ = true ∧
    (frameTablePopLru (bothInMemory 5 6) 1 allAccessed).1 =
      allAccessed.after (bothInMemory 5 6) 1 (bothInMemory 5 6).frameTable := by
  have hd : DistinctAccessed (bothInMemory 5 6) allAccessed (bothInMemory 5 6).frameTable := by
    unfold DistinctAccessed
    decide
  have hpop : (frameTablePopLru (bothInMemory 5 6) 1 allAccessed).2 = some (0, ⟨0, 0, some 5⟩) := by
    decide
  obtain ⟨-, hvictim, hafter⟩ := @frameTablePopLru_victim _ 1 _ hd
  obtain ⟨-, -, -, -, hev, -⟩ := hvictim 0 _ hpop
  exact ⟨hd, hpop, rfl, hev, hafter⟩

/-- Two entries for one accessed page: all pages were accessed, but the victim
    is the second entry, whose bit the first one has cleared. -/
theorem frameTablePopLru_aliased :
    (∀ fte ∈ (bothInMemory 5 5).frameTable, evictable (bothInMemory 5 5) fte = true ∧
      allAccessed.isAccessed fte = true) ∧
    (frameTablePopLru (bothInMemory 5 5) 1 allAccessed).2 = some (1, ⟨1, 0, some 5⟩) := by
  decide

/-! ## Eviction -/

/-- The page has to go to a swap slot when its frame is taken. -/
def SupPageTableEntry.GoesToSwap (e : SupPageTableEntry) : Prop :=
  e.source ≠ .fileBacked ∨ e.mapping = none ∧ e.writable = true

/-- Supplemental entries, page table entries and the swap bitmap are equal, and
    the frame table has the same entries. -/
structure SameTables (s s' : State) : Prop where
  spte : ∀ pid page, s'.spte pid page = s.spte pid page
  pte : ∀ pid page, s'.pte pid page = s.pte pid page
  swapSlots : s'.swapSlots = s.swapSlots
  frameTable : s'.frameTable.Perm s.frameTable

theorem exists_evictToFile (s : State) (fte : FrameTableEntry) (page : PageNo)
    (e : SupPageTableEntry) : ∃ s', evictToFile s fte page e = some (s', some fte.frame) :=
  ⟨_, rfl⟩

/-- With a swap device a page goes to a slot, or the entry is put back. -/
theorem evictToSwap_slot_or_back {b : List Bool} (hb : s.swapSlots = some b) (fte : FrameTableEntry)
    (page : PageNo) (e : SupPageTableEntry) :
    evictToSwap s fte page e = some (s.setFrameTable (s.frameTable ++ [fte]), none) ∨
      ∃ s', evictToSwap s fte page e = some (s', some fte.frame) := by
  simp only [evictToSwap, hb]
  split
  · exact Or.inl rfl
  · exact Or.inr ⟨_, rfl⟩

/-- With a victim in hand: the frame is freed, or the entry is put back and
    nothing but the file has changed, or the page needs a swap device and there
    is none. -/
theorem evictEntryWith_cases (write : FileWrite) (s : State) (fte : FrameTableEntry)
    (page : PageNo) (e : SupPageTableEntry) :
    (∃ s', evictEntryWith write s fte page e = some (s', some fte.frame)) ∨
    (∃ file, evictEntryWith write s fte page e =
      some ((s.setFile e.file file).setFrameTable (s.frameTable ++ [fte]), none)) ∨
    (e.GoesToSwap ∧ s.swapSlots = none ∧ evictEntryWith write s fte page e = none) := by
  have hswap : e.GoesToSwap → evictEntryWith write s fte page e = evictToSwap s fte page e →
      (∃ s', evictEntryWith write s fte page e = some (s', some fte.frame)) ∨
      (∃ file, evictEntryWith write s fte page e =
        some ((s.setFile e.file file).setFrameTable (s.frameTable ++ [fte]), none)) ∨
      (e.GoesToSwap ∧ s.swapSlots = none ∧ evictEntryWith write s fte page e = none) := by
    intro hgoes heq
    rw [heq]
    cases hb : s.swapSlots with
    | none => exact Or.inr (Or.inr ⟨hgoes, rfl, by simp only [evictToSwap, hb]⟩)
    | some b =>
      rcases evictToSwap_slot_or_back hb fte page e with hfull | hdone
      · refine Or.inr (Or.inl ⟨s.files e.file, ?_⟩)
        rw [hfull]
        simp [State.setFile]
      · exact Or.inl hdone
  by_cases hsource : e.source = .fileBacked
  · by_cases hback : (e.mapping.isSome && pagedirIsDirty s fte.owner page) = true
    · simp only [evictEntryWith, hsource, hback, if_true]
      split
      · exact Or.inr (Or.inl ⟨_, rfl⟩)
      · exact Or.inl (exists_evictToFile _ _ _ _)
    · by_cases huse : (e.mapping.isNone && e.writable) = true
      · apply hswap
        · simp only [Bool.and_eq_true, Option.isNone_iff_eq_none] at huse
          exact Or.inr huse
        · simp [evictEntryWith, hsource, hback, huse]
      · simp only [evictEntryWith, hsource, hback, huse]
        exact Or.inl (exists_evictToFile _ _ _ _)
  · apply hswap (Or.inl hsource)
    simp [evictEntryWith, hsource]

/-- Without a swap device a page that needs one fails an assertion. -/
theorem evictEntryWith_eq_none (hgoes : e.GoesToSwap) (hdev : s.swapSlots = none) :
    evictEntryWith write s fte page e = none := by
  have hswap : evictToSwap s fte page e = none := by simp only [evictToSwap, hdev]
  rcases hgoes with hsource | ⟨hmap, hwr⟩
  · rw [evictEntryWith, if_neg hsource, hswap]
  · simp only [evictEntryWith, hmap, hwr, hswap, Option.isSome_none, Option.isNone_none,
      Bool.false_and, Bool.and_true, Bool.false_eq_true, if_false, if_true, ite_self]

/-- The victim's supplemental entry, as `swap_evict_frame` finds it. -/
theorem swapEvictLru_of_pop {acc' : Accesses}
    (hpop : frameTablePopLru s now acc = (acc', some (i, fte))) (hpage : fte.aux = some page)
    (he : s.spte fte.owner page = some e) :
    swapEvictLru write s now acc =
      (evictEntryWith write (s.setFrameTable (s.frameTable.eraseIdx i)) fte page e).map
        fun r => (r.1, acc', r.2) := by
  simp only [swapEvictLru, hpop, State.spte_setFrameTable, hpage, he, Option.bind_some,
    Option.map_some]

/-- The model of `file_write_at` that the other modules use. -/
def growWrite (grow : Bool) : FileWrite := fun file data ofs =>
  if file.denyWriteCnt ≠ 0 then (0, file)
  else if ofs + data.length ≤ file.contents.length ∨ grow then
    (data.length, { file with contents := overwrite 0 file.contents ofs data })
  else (0, file)

theorem fileWriteAt_growWrite (s : State) (f : FileId) (data : List UInt8) (ofs : Nat) (grow : Bool) :
    fileWriteAt s f data ofs grow = ((growWrite grow (s.files f) data ofs).1,
      s.setFile f (growWrite grow (s.files f) data ofs).2) := by
  have hself : s.setFile f (s.files f) = s := by simp [State.setFile]
  simp only [fileWriteAt, growWrite]
  split
  · rw [hself]
  · split
    · rfl
    · rw [hself]

/-- The machine of the other modules, which leaves the choice of the victim
    open, makes every eviction that the real choice leads to. -/
theorem swapEvictLru_growWrite (grow : Bool) (s : State) (now : Nat) (acc : Accesses) :
    swapEvictLru (growWrite grow) s now acc =
      (swapEvictFrame s ((frameTablePopLru s now acc).2.map Prod.fst) grow).map
        fun r => (r.1, (frameTablePopLru s now acc).1, r.2) := by
  rcases hpop : frameTablePopLru s now acc with ⟨acc', _ | ⟨i, fte⟩⟩
  · simp only [swapEvictLru, hpop, swapEvictFrame, frameTablePop, Option.map_none,
      Option.bind_none, Option.map_some]
  · obtain ⟨hget, hev⟩ := frameTablePopLru_mem (by rw [hpop])
    obtain ⟨-, page, e, hpage, he, -⟩ := evictable_iff.mp hev
    rw [swapEvictLru_of_pop hpop hpage he]
    simp only [swapEvictFrame, frameTablePop, Option.map_some, Option.bind_some, hget, hev,
      if_true, State.spte_setFrameTable, hpage, he]
    congr 1
    simp only [evictEntryWith, evictEntry, fileWriteAt_growWrite]

/-- Whatever the accessed bits and times are and whatever `file_write_at` does,
    `swap_evict_frame` fails no assertion and leaves no trace when it frees no
    frame, if and only if there is a swap device or no evictable page needs
    one. -/
theorem failed_eviction_leaves_no_trace_iff (s : State) :
    (∀ write now acc, ∃ s' acc' k, swapEvictLru write s now acc = some (s', acc', k) ∧
      (k = none → SameTables s s')) ↔
    (s.swapSlots.isSome ∨ ∀ fte ∈ s.frameTable, ∀ page e, fte.aux = some page →
      s.spte fte.owner page = some e → evictable s fte = true → ¬ e.GoesToSwap) := by
  constructor
  · intro hall
    by_contra hno
    simp only [not_or, not_forall, not_not] at hno
    obtain ⟨hdev, fte, hmem, page, e, hpage, he, hev, hgoes⟩ := hno
    obtain ⟨acc, j, x, hpop, howner, haux⟩ := frameTablePopLru_oldest hmem hev hpage 0
    obtain ⟨s', acc', k, heq, -⟩ := hall (fun f _ _ => (0, f)) 0 (oldest fte.owner page)
    rw [swapEvictLru_of_pop hpop haux (howner ▸ he)] at heq
    have hnone : s.swapSlots = none := by simpa using hdev
    have hstuck : evictEntryWith (fun f _ _ => (0, f))
        (s.setFrameTable (s.frameTable.eraseIdx j)) x page e = none :=
      evictEntryWith_eq_none hgoes hnone
    rw [hstuck] at heq
    cases heq
  · intro hok write now acc
    rcases hpop : frameTablePopLru s now acc with ⟨acc', _ | ⟨i, fte⟩⟩
    · refine ⟨s, acc', none, by rw [swapEvictLru, hpop], fun _ => ?_⟩
      exact ⟨fun _ _ => rfl, fun _ _ => rfl, rfl, .refl _⟩
    · obtain ⟨hget, hev⟩ := frameTablePopLru_mem (by rw [hpop])
      obtain ⟨-, page, e, hpage, he, -⟩ := evictable_iff.mp hev
      rw [swapEvictLru_of_pop hpop hpage he]
      rcases evictEntryWith_cases write (s.setFrameTable (s.frameTable.eraseIdx i)) fte page e with
        ⟨s', heq⟩ | ⟨file, heq⟩ | ⟨hgoes, hdev, -⟩
      · rw [heq]
        exact ⟨s', acc', some fte.frame, rfl, fun hc => by cases hc⟩
      · rw [heq]
        refine ⟨_, acc', none, rfl, fun _ => ⟨fun _ _ => rfl, fun _ _ => rfl, rfl, ?_⟩⟩
        -- the entry goes to the end of the table
        obtain ⟨hi, rfl⟩ := List.getElem?_eq_some_iff.mp hget
        exact (List.perm_append_singleton _ _).trans (List.getElem_cons_eraseIdx_perm hi)
      · rcases hok with hsome | hnone
        · have hdev' : s.swapSlots = none := hdev
          rw [hdev'] at hsome
          cases hsome
        · exact absurd hgoes (hnone fte (List.mem_of_getElem? hget) page e hpage he hev)

/-- A machine without a swap device. -/
def noSwap : State := { oneFrame 0 with swapSlots := none }

/-- Without a swap device, `swap_evict_frame` fails an assertion on the stack
    page of the only process. -/
theorem eviction_panics_without_swap :
    ∃ s, system.Reachable s ∧ swapEvictLru (growWrite true) s 0 (oldest 0 stackPage) = none := by
  have hinit : system.start noSwap :=
    { initial_oneFrame 0 with
      swapSlots := fun b hb => by cases hb }
  obtain ⟨s, hreach, hp⟩ := System.reachable_of_run hinit
    (l := [.spawn 0 0, .setupStack 0 granted])
    (p := fun s => (swapEvictLru (growWrite true) s 0 (oldest 0 stackPage)).isNone) (by decide)
  exact ⟨s, hreach, Option.isNone_iff_eq_none.mp hp⟩

end Pintos.Vm
