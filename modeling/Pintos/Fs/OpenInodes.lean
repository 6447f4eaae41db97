/-
  Pintos.Fs.OpenInodes

  The list of open inodes in memory: `open_inodes` of inode.c.
-/

import Pintos.Fs.Inode
import Pintos.Base.Triple

namespace Pintos.Fs

open Pintos.Base Pintos.Lib Function

variable {s : State} {n m : Sector} {i : Inode} {f : Inode → Inode}

namespace State

theorem sector_of_inode? (hi : s.inode? n = some i) : i.sector = n := by
  have := List.find?_some hi
  simpa using this

/-- With one entry for each sector, every entry is the one of its sector. -/
theorem inode?_of_mem (hnodup : (s.openInodes.map Inode.sector).Nodup) (hi : i ∈ s.openInodes) :
    s.inode? i.sector = some i := by
  cases hj : s.inode? i.sector with
  | none =>
    have hne := List.find?_eq_none.mp hj i hi
    exact absurd (beq_self_eq_true _) hne
  | some j =>
    have hsector := sector_of_inode? hj
    rw [List.inj_on_of_nodup_map hnodup (List.mem_of_find?_eq_some hj) hi hsector]

/-- An assignment through a pointer to an inode is seen by the lookups of its
    sector only. -/
theorem inode?_updateInode (s : State) {n : Sector} (m : Sector)
    (hf : ∀ i, (f i).sector = i.sector) :
    (s.updateInode n f).inode? m = (s.inode? m).map fun i => if m = n then f i else i := by
  have hsame : (fun k : Inode => k.sector == m) ∘ (fun k => if k.sector = n then f k else k) =
      fun k => k.sector == m := by
    funext k
    simp only [comp]
    split
    · rw [hf]
    · rfl
  rw [State.updateInode, State.inode?, State.setOpenInodes, List.find?_map, hsame, State.inode?]
  cases hfind : s.openInodes.find? fun k => k.sector == m with
  | none => rfl
  | some k => rw [Option.map_some, Option.map_some, sector_of_inode? hfind]

/-- The entries of the list after an assignment. -/
theorem mem_updateInode {s : State} (h : i ∈ (s.updateInode n f).openInodes) :
    ∃ j ∈ s.openInodes, i = if j.sector = n then f j else j := by
  obtain ⟨j, hj, heq⟩ := List.mem_map.mp h
  exact ⟨j, hj, heq.symm⟩

theorem sectors_updateInode {s : State} (hf : ∀ i, (f i).sector = i.sector) :
    (s.updateInode n f).openInodes.map Inode.sector = s.openInodes.map Inode.sector := by
  rw [State.updateInode, State.setOpenInodes, List.map_map]
  apply List.map_congr_left
  intro i _
  simp only [comp_apply]
  split
  · exact hf i
  · rfl

theorem inode?_cons (s : State) (i : Inode) (m : Sector) :
    (s.setOpenInodes (i :: s.openInodes)).inode? m = if m = i.sector then some i else s.inode? m := by
  rw [State.inode?, State.setOpenInodes, List.find?_cons]
  by_cases hm : m = i.sector
  · rw [if_pos hm, hm, beq_self_eq_true]
  · rw [if_neg hm, beq_false_of_ne (Ne.symm hm), State.inode?]

theorem inode?_filter (s : State) (n m : Sector) :
    (s.setOpenInodes (s.openInodes.filter fun i => i.sector ≠ n)).inode? m =
      if m = n then none else s.inode? m := by
  rw [State.inode?, State.setOpenInodes, List.find?_filter]
  split
  · rename_i hm
    rw [List.find?_eq_none]
    intro i _ hi
    simp only [ne_eq, decide_not, Bool.not_eq_eq_eq_not, Bool.not_true, decide_eq_false_iff_not,
      beq_iff_eq, decide_eq_true_eq] at hi
    exact hi.1 (hi.2.trans hm)
  · rename_i hm
    rw [State.inode?]
    congr 1
    funext i
    by_cases hi : i.sector = m
    · simp [hi, hm]
    · simp [hi]

/-- The contents of an open inode change. -/
def setData (s : State) (n : Sector) (d : Memory) : State :=
  s.updateInode n fun i => { i with data := d }

@[simp] theorem setData_disk (s : State) (n : Sector) (d : Memory) : (s.setData n d).disk = s.disk := rfl

theorem inode?_setData (s : State) (n : Sector) (d : Memory) (m : Sector) :
    (s.setData n d).inode? m = (s.inode? m).map fun i => if m = n then { i with data := d } else i :=
  s.inode?_updateInode m fun _ => rfl

theorem sectors_setData (s : State) (n : Sector) (d : Memory) :
    (s.setData n d).openInodes.map Inode.sector = s.openInodes.map Inode.sector :=
  sectors_updateInode fun _ => rfl

end State

theorem getInode_eq (hi : s.inode? n = some i) : getInode n s = .ok i s := by
  have hget : (get : M State) s = .ok s s := rfl
  rw [getInode, bind_ok hget]
  simp only [hi]
  rfl

end Pintos.Fs
