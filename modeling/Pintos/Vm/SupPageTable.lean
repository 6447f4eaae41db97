/-
  Pintos.Vm.SupPageTable

  The supplemental page table of a process is a hash table (lib/kernel/hash.c) of
  entries, with the functions `sup_page_hash` and `sup_page_less`.  Elsewhere the
  table is a function of the page: here the hash table is shown to hold the entries
  of that function, and the operations of vm/sup_page_table.c to keep it so.
-/

import Pintos.Lib.Hash
import Pintos.Vm.Fault

namespace Pintos.Vm

open Pintos.Base Pintos.Lib

/-- The bytes of `user_vaddr`. -/
def vaddrBytes (page : PageNo) : List UInt8 :=
  (List.range 4).map fun k => UInt8.ofNat (page * PGSIZE / 2 ^ (8 * k))

/-- `sup_page_hash`; an entry is known by its page. -/
def supPageHash (page : PageNo) : UInt32 := hashBytes (vaddrBytes page)

/-- `sup_page_less`. -/
def supPageLess (a b : PageNo) : Bool := a * PGSIZE < b * PGSIZE

theorem supPageLess_iff {a b : PageNo} : supPageLess a b = true ↔ a < b := by
  rw [supPageLess, decide_eq_true_eq]
  exact Nat.mul_lt_mul_right (by decide)

theorem supPageLess_false {a b : PageNo} : supPageLess a b = false ↔ b ≤ a := by
  rw [Bool.eq_false_iff, ne_eq, supPageLess_iff, Nat.not_lt]

/-- The functions of the table. -/
def supPageFuncs : HashFuncs PageNo where
  hash := supPageHash
  less := supPageLess
  irrefl a := supPageLess_false.mpr (Nat.le_refl a)
  trans a b c hab hbc :=
    supPageLess_iff.mpr (Nat.lt_trans (supPageLess_iff.mp hab) (supPageLess_iff.mp hbc))
  incomp_trans a b c hab hbc := by
    simp only [supPageLess_false] at hab hbc ⊢
    exact ⟨Nat.le_trans hbc.1 hab.1, Nat.le_trans hab.2 hbc.2⟩
  agree a b hab hba := by
    rw [Nat.le_antisymm (supPageLess_false.mp hba) (supPageLess_false.mp hab)]

theorem supPageFuncs_rel {a b : PageNo} : supPageFuncs.setoid a b ↔ a = b := by
  constructor
  · intro h
    exact Nat.le_antisymm (supPageLess_false.mp h.2) (supPageLess_false.mp h.1)
  · rintro rfl
    exact supPageFuncs.setoid.refl a

/-- Twenty pages: the table grows to eight buckets. -/
theorem hash_refines_pages :
    let ops := (List.range 20).map fun page => (HashOp.insert page, true)
    (hashRun supPageFuncs hashInit ops).1.bucketCnt = 8 ∧
      (hashRun supPageFuncs hashInit ops).2 =
        (keyedRun (.empty supPageFuncs.setoid) (ops.map Prod.fst)).2 ∧
      HashSound supPageFuncs (hashRun supPageFuncs hashInit ops).1
        (keyedRun (.empty supPageFuncs.setoid) (ops.map Prod.fst)).1 :=
  ⟨by decide +kernel, hash_refines supPageFuncs _⟩

/-! ## The table of a process -/

/-- The hash table has the pages with an entry. -/
def Holds (table : Hash PageNo) (s : State) (pid : Pid) : Prop :=
  ∃ pages : KeyedSet supPageFuncs.setoid, Refines supPageFuncs table pages ∧
    ∀ r, r ∈ pages.elems ↔ (s.spte pid r).isSome = true

/-- `sup_page_table_add` and `sup_page_table_add_file`, as far as the table is concerned:
    `malloc` is the allocation of the entry, `ok` that of the buckets. -/
def tableAdd (table : Hash PageNo) (page : PageNo) (malloc ok : Bool) : Option (Hash PageNo) :=
  match hashFind supPageFuncs table page with
  | some _ => some table
  | none => if malloc then some (hashInsert supPageFuncs table page ok).1 else none

section

variable {table : Hash PageNo} {s : State} {pid : Pid} {page : PageNo}

/-- `hash_init` in `start_process`. -/
theorem Holds.init (h : ∀ r, s.spte pid r = none) : Holds hashInit s pid := by
  refine ⟨.empty _, .init, fun r => ?_⟩
  rw [h r]
  simp [KeyedSet.empty]

/-- `sup_page_table_find`. -/
theorem Holds.find (h : Holds table s pid) (page : PageNo) :
    hashFind supPageFuncs table page = (s.spte pid page).map fun _ => page := by
  obtain ⟨pages, hr, hmem⟩ := h
  have hfind : hashFind supPageFuncs table page = pages.find page := (hr.step true (.find page)).2
  rw [hfind]
  cases he : s.spte pid page with
  | none =>
    refine KeyedSet.find_eq_none fun a ha hrel => ?_
    rw [supPageFuncs_rel.mp hrel, hmem, he] at ha
    cases ha
  | some e =>
    refine KeyedSet.find_eq_some ((hmem page).mpr ?_) (supPageFuncs.setoid.refl page)
    rw [he]
    rfl

/-- A new entry is inserted. -/
theorem Holds.insert (h : Holds table s pid) (hnone : s.spte pid page = none)
    (e : SupPageTableEntry) (ok : Bool) :
    Holds (hashInsert supPageFuncs table page ok).1 (s.setSpte pid page (some e)) pid := by
  obtain ⟨pages, hr, hmem⟩ := h
  refine ⟨pages.insert page, (hr.step ok (.insert page)).1, fun r => ?_⟩
  have hnew : ∀ a ∈ pages.elems, ¬ supPageFuncs.setoid a page := by
    intro a ha hrel
    rw [supPageFuncs_rel.mp hrel, hmem, hnone] at ha
    cases ha
  rw [KeyedSet.mem_insert_of_none hnew, hmem, State.spte_setSpte]
  by_cases hpage : r = page
  · simp [hpage]
  · simp [hpage]

/-- `hash_delete` in `sup_page_table_remove`. -/
theorem Holds.delete (h : Holds table s pid) (page : PageNo) (ok : Bool) :
    Holds (hashDelete supPageFuncs table page ok).1 (s.setSpte pid page none) pid := by
  obtain ⟨pages, hr, hmem⟩ := h
  refine ⟨pages.delete page, (hr.step ok (.delete page)).1, fun r => ?_⟩
  rw [KeyedSet.mem_delete, supPageFuncs_rel, hmem, State.spte_setSpte]
  by_cases hpage : r = page
  · simp [hpage]
  · simp [hpage]

/-- The entry of a page is changed in place. -/
theorem Holds.setSpte {e e' : SupPageTableEntry} (h : Holds table s pid)
    (he : s.spte pid page = some e) : Holds table (s.setSpte pid page (some e')) pid := by
  obtain ⟨pages, hr, hmem⟩ := h
  refine ⟨pages, hr, fun r => ?_⟩
  rw [hmem, State.spte_setSpte]
  by_cases hpage : r = page
  · simp [hpage, he]
  · simp [hpage]

/-- `sup_page_table_add` succeeds on the hash table exactly if it does on the function, and
    the new table has the pages of the new function. -/
theorem supPageTableAdd_refines (h : Holds table s pid) (malloc ok : Bool) :
    Option.Rel (fun r t => Holds t r.2 pid) (supPageTableAdd s pid page malloc)
      (tableAdd table page malloc ok) := by
  rw [supPageTableAdd, tableAdd, h.find]
  cases he : s.spte pid page with
  | some e => exact .some h
  | none =>
    cases malloc with
    | false => exact .none
    | true => exact .some (h.insert he _ ok)

theorem supPageTableAddFile_refines {file : FileId} {ofs readBytes zeroBytes : Nat}
    {writable : Bool} (h : Holds table s pid) (malloc ok : Bool) :
    Option.Rel (fun s' t => Holds t s' pid)
      (supPageTableAddFile s pid page file ofs readBytes zeroBytes writable malloc)
      (tableAdd table page malloc ok) := by
  rw [supPageTableAddFile, tableAdd, h.find]
  cases he : s.spte pid page with
  | some e => exact .some h
  | none =>
    cases malloc with
    | false => exact .none
    | true => exact .some (h.insert he _ ok)

end

end Pintos.Vm
