/-
  Pintos.Vm.FreshPages

  When `page_fault` (userprog/exception.c) makes a page because a stack grows,
  and what the process finds in it.  `palloc_get_page` is called with
  `PAL_ZERO`; a frame that `swap_evict_frame` takes from another page is used as
  it is.
-/

import Pintos.Vm.Sound

namespace Pintos.Vm

open Pintos.Base Pintos.Lib

variable {s s' s₁ : State} {pid : Pid} {page : PageNo} {k : Frame} {f : PageFault} {a : Allocs}

/-! ## Where the frame comes from -/

/-- Memory is the same, and no page has got an entry or a mapping. -/
structure NothingNew (s s' : State) : Prop where
  mem : s'.mem = s.mem
  spte : ∀ pid page, s.spte pid page = none → s'.spte pid page = none
  pte : ∀ pid page, (s.pte pid page).present = false → (s'.pte pid page).present = false

namespace NothingNew

theorem of_eq (hmem : s'.mem = s.mem) (hprocs : s'.procs = s.procs) : NothingNew s s' where
  mem := hmem
  spte pid page h := by rw [State.spte, hprocs]; exact h
  pte pid page h := by rw [State.pte, hprocs]; exact h

theorem trans (h : NothingNew s s₁) (h' : NothingNew s₁ s') : NothingNew s s' where
  mem := h'.mem.trans h.mem
  spte pid page hn := h'.spte pid page (h.spte pid page hn)
  pte pid page hn := h'.pte pid page (h.pte pid page hn)

theorem pagedirClearPage (s : State) (pid : Pid) (page : PageNo) :
    NothingNew s (pagedirClearPage s pid page) := by
  simp only [Vm.pagedirClearPage]
  split
  · refine ⟨rfl, fun p q hn => (State.spte_setPte ..).trans hn, fun p q hn => ?_⟩
    rw [State.pte_setPte]
    split
    · rfl
    · exact hn
  · exact of_eq rfl rfl

/-- The entry that is assigned to is one that exists. -/
theorem setSpte {e : SupPageTableEntry} (he : s.spte pid page = some e) (x : SupPageTableEntry) :
    NothingNew s (s.setSpte pid page (some x)) := by
  refine ⟨rfl, fun p q hn => ?_, fun p q hn => by rwa [State.pte_setSpte]⟩
  rw [State.spte_setSpte]
  split
  · rename_i hpq
    rw [hpq.1, hpq.2, he] at hn
    cases hn
  · exact hn

end NothingNew

theorem spte_pagedirClearPage (s : State) (pid q : Pid) (page r : PageNo) :
    (pagedirClearPage s pid page).spte q r = s.spte q r := by
  simp only [pagedirClearPage]
  split
  · exact State.spte_setPte ..
  · rfl

section Eviction

variable {fte : FrameTableEntry} {r : PageNo} {e : SupPageTableEntry} {grow : Bool}
  {o : Option Frame}

theorem evictToFile_nothingNew (he : s.spte fte.owner r = some e)
    (h : evictToFile s fte r e = some (s', o)) : NothingNew s s' ∧ o = some fte.frame := by
  cases h
  have he' : (pagedirClearPage s fte.owner r).spte fte.owner r = some e :=
    (spte_pagedirClearPage ..).trans he
  exact ⟨(NothingNew.pagedirClearPage s fte.owner r).trans (.setSpte he' _), rfl⟩

/-- Evicting a page changes no memory and maps nothing. -/
theorem Evicted.nothingNew (he : s.spte fte.owner r = some e) (h : Evicted s fte r e (s', o)) :
    NothingNew s s' ∧ ∀ k, o = some k → k = fte.frame := by
  cases h with
  | kept h =>
    cases h
    exact ⟨.of_eq rfl rfl, fun k hk => by cases hk⟩
  | dropped _ _ _ h =>
    obtain ⟨hnew, rfl⟩ := evictToFile_nothingNew he h
    exact ⟨hnew, fun k hk => (Option.some.inj hk).symm⟩
  | written _ _ _ _ h =>
    -- the write to the file touches nothing else
    obtain ⟨hnew, rfl⟩ := evictToFile_nothingNew (s := s.setFile e.file _) he h
    exact ⟨⟨hnew.mem, hnew.spte, hnew.pte⟩, fun k hk => (Option.some.inj hk).symm⟩
  | @swapped b i _ _ _ h =>
    cases h
    have hslot : NothingNew s (writeToBlock (s.setSwapSlots (b.set i true)) i (s.mem fte.frame)) :=
      .of_eq rfl rfl
    have he' : (writeToBlock (s.setSwapSlots (b.set i true)) i (s.mem fte.frame)).spte fte.owner r =
        some e := he
    exact ⟨(hslot.trans (.setSpte he' _)).trans (.pagedirClearPage _ _ _),
      fun k hk => (Option.some.inj hk).symm⟩

theorem swapEvictFrame_nothingNew {victim : Option Nat}
    (h : swapEvictFrame s victim grow = some (s', o)) :
    NothingNew s s' ∧ ∀ k, o = some k →
      ∃ i fte, victim = some i ∧ s.frameTable[i]? = some fte ∧ k = fte.frame := by
  rcases swapEvictFrame_cases h with ⟨rfl, rfl⟩ | ⟨i, k, q, page, e, hi, hget, he, h⟩
  · exact ⟨.of_eq rfl rfl, fun k hk => by cases hk⟩
  · obtain ⟨hnew, hframe⟩ := (Evicted.of_evictEntry h).nothingNew he
    exact ⟨⟨hnew.mem, hnew.spte, hnew.pte⟩, fun k hk => ⟨i, _, hi, hget, hframe k hk⟩⟩

end Eviction

/-! ## What the fault makes of it -/

/-- Giving the frame back and exiting maps nothing. -/
theorem pte_of_free_exit (h : (pallocFreePage s k).map (exit · pid) = some s') (p : Pid)
    (q : PageNo) : s'.pte p q = s.pte p q := by
  obtain ⟨s₁, h₁, rfl⟩ := Option.map_eq_some_iff.mp h
  rw [pallocFreePage_eq h₁]
  exact State.pte_setPhase ..

/-- A new page that is mapped at the end has the frame, and memory is as it
    was. -/
theorem faultFill_new (hnew : s.spte pid page = none) (habsent : (s.pte pid page).present = false)
    (h : faultFill s pid page k a = some s') (hmap : (s'.pte pid page).present = true) :
    isUserVaddr (page * PGSIZE) = true ∧ (s'.pte pid page).frame = k ∧ s'.mem = s.mem := by
  -- on the ways out that end in `exit` the page is not mapped
  have hexit : ∀ t : State, (∀ p q, t.pte p q = s.pte p q) →
      (pallocFreePage t k).map (exit · pid) = some s' → False := by
    intro t ht h
    rw [pte_of_free_exit h, ht, habsent] at hmap
    cases hmap
  cases hfte : a.fte with
  | false =>
    simp only [faultFill, frameTableAdd, hfte, Bool.false_eq_true, if_false] at h
    exact (hexit s (fun _ _ => rfl) h).elim
  | true =>
    simp only [faultFill, frameTableAdd, hfte, if_true, State.spte_setFrameTable, hnew,
      supPageTableAdd] at h
    cases hspte : a.spte with
    | false =>
      simp only [hspte, Bool.false_eq_true, if_false] at h
      refine (hexit _ (fun p q => ?_) h).elim
      rfl
    | true =>
      simp only [hspte, if_true, faultInstall] at h
      generalize ht : frameTableSetAux _ k page = t at h
      have hpte : ∀ p q, t.pte p q = s.pte p q := by
        intro p q
        rw [← ht]
        exact State.pte_setSpte ..
      have hmem : t.mem = s.mem := by
        rw [← ht]
        rfl
      rcases installPage_cases t pid page k SupPageTableEntry.fresh.writable a.pageTable with
        hin | hin | ⟨-, hin⟩
      · rw [hin] at h
        cases h
      · rw [hin] at h
        refine (hexit _ (fun p q => ?_) h).elim
        simp only [Bool.false_eq_true, if_false, State.pte_setSpte]
        exact hpte p q
      · have huser : isUserVaddr (page * PGSIZE) = true := by
          by_contra hno
          simp only [installPage, hno] at hin
          cases hin
        rw [hin] at h
        simp only [Bool.false_and, Bool.false_eq_true, if_false, Option.some.injEq] at h
        subst h
        refine ⟨huser, ?_, hmem⟩
        simp

/-- User memory ends at the end of a page. -/
theorem isUserVaddr_add {p off : Nat} (hp : isUserVaddr (p * PGSIZE) = true)
    (hoff : off < PGSIZE) : isUserVaddr (p * PGSIZE + off) = true := by
  have hbase : PHYS_BASE = 786432 * PGSIZE := rfl
  simp only [isUserVaddr, decide_eq_true_eq, hbase] at hp ⊢
  have hlt : p < 786432 := Nat.lt_of_mul_lt_mul_right hp
  calc p * PGSIZE + off < p * PGSIZE + PGSIZE := Nat.add_lt_add_left hoff _
    _ = (p + 1) * PGSIZE := (Nat.succ_mul p PGSIZE).symm
    _ ≤ 786432 * PGSIZE := Nat.mul_le_mul_right _ hlt

/-- The bytes of a new page, as the process reads them. -/
theorem userLoad_new_iff (huser : isUserVaddr (page * PGSIZE) = true)
    (hmap : (s.pte pid page).present = true) :
    (∀ addr, addr / PGSIZE = page → userLoad s pid addr = some 0) ↔
      ∀ off < PGSIZE, s.mem (s.pte pid page).frame off = 0 := by
  have hload : ∀ off < PGSIZE, userLoad s pid (page * PGSIZE + off) =
      some (s.mem (s.pte pid page).frame off) := by
    intro off hoff
    have haddr : isUserVaddr (page * PGSIZE + off) = true := isUserVaddr_add huser hoff
    have hdiv : (page * PGSIZE + off) / PGSIZE = page := by
      rw [Nat.mul_comm, Nat.mul_add_div (by decide), Nat.div_eq_of_lt hoff, Nat.add_zero]
    have hmod : (page * PGSIZE + off) % PGSIZE = off := by
      rw [Nat.mul_comm, Nat.mul_add_mod, Nat.mod_eq_of_lt hoff]
    rw [userLoad, hdiv, hmod, haddr, hmap]
    rfl
  constructor
  · intro hall off hoff
    have hzero := hall (page * PGSIZE + off) (by
      rw [Nat.mul_comm, Nat.mul_add_div (by decide), Nat.div_eq_of_lt hoff, Nat.add_zero])
    rw [hload off hoff] at hzero
    exact Option.some.inj hzero
  · rintro hall addr rfl
    have hoff := Nat.mod_lt addr (show 0 < PGSIZE by decide)
    rw [← Nat.div_add_mod' addr PGSIZE, hload _ hoff]
    exact congrArg some (hall _ hoff)

/-- A page fault has made a new page.  The process reads zeros from it if and
    only if a user frame was free, or the frame that was taken from another page
    held zeros. -/
theorem fresh_page_zero_iff (h : pageFault s pid f a = some s')
    (hnew : s.spte pid (f.faultAddr / PGSIZE) = none)
    (habsent : (s.pte pid (f.faultAddr / PGSIZE)).present = false)
    (hmap : (s'.pte pid (f.faultAddr / PGSIZE)).present = true) :
    (∀ addr, addr / PGSIZE = f.faultAddr / PGSIZE → userLoad s' pid addr = some 0) ↔
      false ∈ s.userPool ∨
        ∀ i fte, a.victim = some i → s.frameTable[i]? = some fte →
          ∀ off < PGSIZE, s.mem fte.frame off = 0 := by
  -- `exit` maps nothing
  have hexit : ∀ t : State, (t.pte pid (f.faultAddr / PGSIZE)).present = false →
      exit t pid = s' → False := by
    rintro t ht rfl
    rw [exit, State.pte_setPhase, ht] at hmap
    cases hmap
  rcases pageFault_cases h with rfl | ⟨s₁, hframe, rfl⟩ | ⟨s₁, k, hframe, h⟩
  · exact (hexit s habsent rfl).elim
  · rcases faultFrame_cases hframe with ⟨k, -, hk⟩ | ⟨-, hev⟩
    · cases hk
    · exact (hexit s₁ ((swapEvictFrame_nothingNew hev).1.pte _ _ habsent) rfl).elim
  · rcases faultFrame_cases hframe with ⟨k', hget, hk⟩ | ⟨hnone, hev⟩
    · cases hk
      obtain ⟨hfree, rfl⟩ := pallocGetPage_eq hget
      obtain ⟨huser, hk, hmem⟩ := faultFill_new (by exact hnew) (by exact habsent) h hmap
      rw [userLoad_new_iff huser hmap, hk, hmem]
      refine iff_of_true (fun off _ => ?_) (Or.inl (List.mem_of_getElem? hfree))
      simp [State.setMem]
    · have hfull : false ∉ s.userPool := by
        intro hmem
        obtain ⟨i, hi⟩ := List.mem_iff_getElem?.mp hmem
        exact bitmapScanAndFlip_none (Option.map_eq_none_iff.mp hnone) i hi
      obtain ⟨hnothing, hvictim⟩ := swapEvictFrame_nothingNew hev
      obtain ⟨i, fte, hi, hget, rfl⟩ := hvictim k rfl
      obtain ⟨huser, hk, hmem⟩ := faultFill_new (hnothing.spte _ _ hnew)
        (hnothing.pte _ _ habsent) h hmap
      rw [userLoad_new_iff huser hmap, hk, hmem, hnothing.mem, or_iff_right hfull]
      constructor
      · intro hzero j x hj hx
        cases hi.symm.trans hj
        cases hget.symm.trans hx
        exact hzero
      · exact fun hzero => hzero i fte hi hget

/-- A fault just below the first stack page. -/
def growStack : PageFault := ⟨0xBFFFEFF8, 0xBFFFF010, true, true⟩

/-- The two pages of the stack: the second one is new and is mapped. -/
def growsStack (s : State) (pid : Pid) : Bool :=
  (s.spte pid 0xBFFFE).isNone && !(s.pte pid 0xBFFFE).present &&
    (pageFault s pid growStack granted).any fun s' => (s'.pte pid 0xBFFFE).present

/-- With a second frame free, the stack grows by a page of zeros. -/
theorem fresh_page_zero_iff_free :
    ∃ s s', system.Reachable s ∧ pageFault s 0 growStack granted = some s' ∧
      ∀ addr, addr / PGSIZE = 0xBFFFE → userLoad s' 0 addr = some 0 := by
  have hinit : system.start { oneFrame 1 with userPool := [false, false] } :=
    { initial_oneFrame 1 with userPool := by simp }
  obtain ⟨s, hreach, hp⟩ := System.reachable_of_run hinit
    (l := [.spawn 0 0, .setupStack 0 granted])
    (p := fun s => growsStack s 0 && s.userPool.contains false) (by decide)
  simp only [growsStack, Bool.and_eq_true, Option.isNone_iff_eq_none, Bool.not_eq_true',
    Option.any_eq_true, List.contains_iff_mem] at hp
  obtain ⟨⟨⟨hnew, habsent⟩, s', hfault, hmap⟩, hfree⟩ := hp
  exact ⟨s, s', hreach, hfault,
    (fresh_page_zero_iff hfault hnew habsent hmap).mpr (Or.inl hfree)⟩

/-- With no frame free, process 1 grows its stack by the frame of process 0 and
    reads the byte that process 0 has stored there. -/
theorem fresh_page_leaks :
    ∃ s s', system.Reachable s ∧ s.spte 1 0xBFFFE = none ∧
      next s (.fault 1 growStack true granted) = some s' ∧
      userLoad s' 1 0xBFFFE004 = some 7 := by
  have hinit : system.start { oneFrame 2 with userPool := [false, false] } :=
    { initial_oneFrame 2 with userPool := by simp }
  obtain ⟨s, hreach, hp⟩ := System.reachable_of_run hinit
    (l := [.spawn 0 0, .setupStack 0 granted, .store 0 0xBFFFF004 7, .spawn 1 0,
      .setupStack 1 granted])
    (p := fun s => (s.spte 1 0xBFFFE).isNone &&
      (next s (.fault 1 growStack true granted)).any fun s' =>
        userLoad s' 1 0xBFFFE004 == some 7) (by decide)
  simp only [Bool.and_eq_true, Option.isNone_iff_eq_none, Option.any_eq_true, beq_iff_eq] at hp
  obtain ⟨hnew, s', hstep, hload⟩ := hp
  exact ⟨s, s', hreach, hnew, hstep, hload⟩


/-! ## Accesses by the kernel -/

/-- Where there is no supplemental entry, an access by the kernel ends the
    process. -/
theorem pageFault_kernel {addr esp : Nat} (huser : isUserVaddr addr = true)
    (hnew : s.spte pid (addr / PGSIZE) = none) (a : Allocs) :
    pageFault s pid ⟨addr, esp, true, false⟩ a = some (exit s pid) := by
  simp [pageFault, huser, hnew]

/-- An access by the program ends it where the stack may not grow. -/
theorem pageFault_user_killed {addr esp : Nat} (hnew : s.spte pid (addr / PGSIZE) = none)
    (hkill : checkShouldKill ⟨addr, esp, true, true⟩ = true) (a : Allocs) :
    pageFault s pid ⟨addr, esp, true, true⟩ a = some (exit s pid) := by
  simp [pageFault, hnew, hkill]

/-- With a frame free, an access by the program makes a page where the stack may
    grow. -/
theorem pageFault_user_grows (pid : Pid) {addr esp : Nat} (huser : isUserVaddr addr = true)
    (hgrow : checkShouldKill ⟨addr, esp, true, true⟩ = false) :
    ∃ s', pageFault (oneFrame 0) pid ⟨addr, esp, true, true⟩ granted = some s' ∧
      (s'.spte pid (addr / PGSIZE)).isSome := by
  have hpage : isUserVaddr (addr / PGSIZE * PGSIZE) = true := by
    simp only [isUserVaddr, decide_eq_true_eq] at huser ⊢
    exact Nat.lt_of_le_of_lt (Nat.div_mul_le_self ..) huser
  have hempty : ∀ r, (oneFrame 0).spte pid r = none ∧ (oneFrame 0).pte pid r = {} :=
    fun _ => ⟨rfl, rfl⟩
  have hframe : ∃ b d, faultFrame (oneFrame 0) granted =
      some (((oneFrame 0).setUserPool b).setMem 0 d, some 0) := ⟨_, _, rfl⟩
  obtain ⟨b, d, hframe⟩ := hframe
  have hgranted : granted.fte = true ∧ granted.spte = true ∧ granted.pageTable = true :=
    ⟨rfl, rfl, rfl⟩
  simp [pageFault, hgrow, hframe, faultFill, frameTableAdd, supPageTableAdd, faultInstall,
    frameTableSetAux, installPage, pagedirGetPage, hpage, hempty, hgranted]

/-- The kernel and the program agree on an address exactly where the program may
    not grow its stack either: there both are ended. -/
theorem kernel_and_user_growth_agree_iff (addr esp : Nat) (huser : isUserVaddr addr = true) :
    (∀ s pid kesp a, s.spte pid (addr / PGSIZE) = none →
      pageFault s pid ⟨addr, kesp, true, false⟩ a = pageFault s pid ⟨addr, esp, true, true⟩ a) ↔
    checkShouldKill ⟨addr, esp, true, true⟩ = true := by
  constructor
  · intro hall
    by_contra hno
    obtain ⟨s', hgrown, hsome⟩ := pageFault_user_grows 0 huser (by simpa using hno)
    have hagree := hall (oneFrame 0) 0 0 granted rfl
    rw [hgrown, pageFault_kernel huser rfl, Option.some.injEq] at hagree
    rw [← hagree, exit, State.spte_setPhase] at hsome
    cases hsome
  · intro hkill s pid kesp a hnew
    rw [pageFault_kernel huser hnew, pageFault_user_killed hnew hkill]

/-- The null page is not part of the stack for either. -/
theorem kernel_and_user_growth_agree_null : isUserVaddr 0 = true ∧
    ∀ s pid kesp a, s.spte pid 0 = none →
      pageFault s pid ⟨0, kesp, true, false⟩ a = pageFault s pid ⟨0, 0xBFFFF010, true, true⟩ a :=
  ⟨by decide, (kernel_and_user_growth_agree_iff 0 0xBFFFF010 (by decide)).mpr (by decide)⟩

/-- 24 bytes below the stack pointer, on the next page, the program grows its stack
    and a system call on its behalf ends it. -/
theorem kernel_access_does_not_grow :
    ∃ s, system.Reachable s ∧ growsStack s 0 = true ∧
      ∀ kesp, pageFault s 0 { growStack with esp := kesp, user := false } granted =
        some (exit s 0) := by
  have hinit : system.start { oneFrame 1 with userPool := [false, false] } :=
    { initial_oneFrame 1 with userPool := by simp }
  obtain ⟨s, hreach, hp⟩ := System.reachable_of_run hinit
    (l := [.spawn 0 0, .setupStack 0 granted]) (p := fun s => growsStack s 0) (by decide)
  refine ⟨s, hreach, hp, fun kesp => pageFault_kernel (by decide) ?_ granted⟩
  simp only [growsStack, Bool.and_eq_true, Option.isNone_iff_eq_none] at hp
  exact hp.1.1

end Pintos.Vm
