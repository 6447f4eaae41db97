/-
  Pintos.Userprog.ArgumentStack

  What `push_arguments` and `setup_stack` (userprog/process.c) leave on the
  stack, against the words of the command line, and where they store.

  The loop copies the command line from its end and starts a new argument at
  every run of spaces.  So a run of spaces at either end of the line makes an
  empty argument, and the arguments are the words of the line exactly if there
  is none.
-/

import Pintos.Userprog.Arguments
import Pintos.Base.Memory

namespace Pintos.Userprog

open Function

/-! ## Bytes and words in memory -/

/-- The bytes of `l` are at `a`. -/
def BytesAt (m : Memory) : Nat → List UInt8 → Prop
  | _, [] => True
  | a, b :: l => m a = b ∧ BytesAt m (a + 1) l

/-- The words of `l` are at `a`. -/
def WordsAt (m : Memory) : Nat → List Nat → Prop
  | _, [] => True
  | a, v :: l => Base.word m a = v ∧ WordsAt m (a + 4) l

section

variable {m m' : Memory} {a v : Nat} {b : UInt8}

theorem BytesAt.congr {l : List UInt8} (h : BytesAt m a l)
    (hm : ∀ x, a ≤ x → x < a + l.length → m' x = m x) : BytesAt m' a l := by
  induction l generalizing a with
  | nil => trivial
  | cons b l ih =>
    rw [List.length_cons] at hm
    exact ⟨(hm a (by omega) (by omega)).trans h.1, ih h.2 fun x hx hlt => hm x (by omega) (by omega)⟩

theorem WordsAt.congr {l : List Nat} (h : WordsAt m a l)
    (hm : ∀ x, a ≤ x → x < a + 4 * l.length → m' x = m x) : WordsAt m' a l := by
  induction l generalizing a with
  | nil => trivial
  | cons v l ih =>
    rw [List.length_cons] at hm
    refine ⟨?_, ih h.2 fun x hx hlt => hm x (by omega) (by omega)⟩
    rw [Base.word_congr fun x hx hlt => hm x hx (by omega)]
    exact h.1

theorem BytesAt.append {l l' : List UInt8} (h : BytesAt m a (l ++ l')) :
    BytesAt m a l ∧ BytesAt m (a + l.length) l' := by
  induction l generalizing a with
  | nil => exact ⟨trivial, h⟩
  | cons b l ih =>
    obtain ⟨h₁, h₂⟩ := ih h.2
    rw [List.length_cons, Nat.add_comm l.length, ← Nat.add_assoc]
    exact ⟨⟨h.1, h₁⟩, h₂⟩

theorem store8_eq (h : store8 m a b = some m') :
    m' = update m a b ∧ physBase - pgSize ≤ a ∧ a < physBase := by
  have hin := store8_isSome.mp (Option.isSome_iff_exists.mpr ⟨m', h⟩)
  rw [store8] at h
  split at h
  · exact ⟨(Option.some.inj h).symm, hin⟩
  · cases h

theorem store32_eq (h : store32 m a v = some m') :
    m' = Base.setWord m a v ∧ physBase - pgSize ≤ a ∧ a + 3 < physBase := by
  have hin := store32_isSome.mp (Option.isSome_iff_exists.mpr ⟨m', h⟩)
  rw [store32] at h
  split at h
  · refine ⟨?_, hin⟩
    rw [← Option.some.inj h]
    funext x
    rw [Base.setWord, Nat.pow_mul]
  · cases h

end

/-! ## The strings and the pointers -/

/-- Strings one behind the other, each with its null byte. -/
def strings (fs : List (List UInt8)) : List UInt8 := fs.flatMap (· ++ [0])

/-- Where they start, from `a` on. -/
def starts : Nat → List (List UInt8) → List Nat
  | _, [] => []
  | a, f :: fs => a :: starts (a + f.length + 1) fs

/-- The strings the loop makes of the characters `l`, last one first, in front
    of `w`, the string it is in, and those behind it. -/
def pushFields : List UInt8 → List UInt8 → List (List UInt8) → List (List UInt8)
  | [], w, fs => w :: fs
  | ch :: rest, w, fs =>
    if ch = 32 then pushFields (rest.dropWhile (· == 32)) [] (w :: fs)
    else pushFields rest (ch :: w) fs
termination_by l => l.length
decreasing_by
  · have hle := (List.dropWhile_suffix (l := rest) (· == 32)).length_le
    simp only [List.length_cons]
    omega
  · simp

/-- The loop between two characters: the strings so far lie at the top of the
    page from `esp` on, and the pointers to all but the first of them below `low`,
    from `argv` on, with a null pointer at `top`. -/
structure Pushed (low top : Nat) (s : Push) (w : List UInt8) (fs : List (List UInt8)) : Prop where
  strings : BytesAt s.mem s.esp (strings (w :: fs))
  fill : s.esp + (Userprog.strings (w :: fs)).length = physBase
  pointers : WordsAt s.mem s.argv (starts (s.esp + w.length + 1) fs ++ [0])
  argv : s.argv + 4 * fs.length = top
  argc : s.argc = fs.length + 1
  apart : top + 4 ≤ low

theorem starts_length (a : Nat) (fs : List (List UInt8)) : (starts a fs).length = fs.length := by
  induction fs generalizing a with
  | nil => rfl
  | cons f fs ih => rw [starts, List.length_cons, ih, List.length_cons]

namespace Pushed

variable {low top : Nat} {s s' : Push} {w : List UInt8} {fs : List (List UInt8)} {m : Memory}

/-- The null pointer and the null byte of the command line are stored. -/
theorem start {m₀ m₁ : Memory} (hapart : top + 4 ≤ low) (hlow : low < physBase)
    (hm₀ : store32 m top 0 = some m₀) (hm₁ : store8 m₀ (physBase - 1) 0 = some m₁) :
    Pushed low top ⟨physBase - 1, top, 1, m₁⟩ [] [] := by
  obtain ⟨rfl, -, -⟩ := store32_eq hm₀
  obtain ⟨rfl, -, -⟩ := store8_eq hm₁
  constructor
  case strings => exact ⟨by simp, trivial⟩
  case fill => rfl
  case pointers =>
    refine ⟨?_, trivial⟩
    show Base.word (update _ (physBase - 1) 0) top = 0
    rw [Base.word_congr fun x _ hx => update_of_ne (by omega) ..,
      Base.word_setWord_self (by omega)]
  case argv => rfl
  case argc => rfl
  case apart => exact hapart

/-- A character is stored in front of the strings. -/
theorem char {ch : UInt8} (h : Pushed low top s w fs) (hroom : low < s.esp)
    (hm : store8 s.mem (s.esp - 1) ch = some m) :
    Pushed low top { s with esp := s.esp - 1, mem := m } (ch :: w) fs := by
  obtain ⟨rfl, -, -⟩ := store8_eq hm
  have hesp : s.esp - 1 + 1 = s.esp := by omega
  constructor
  case strings =>
    refine ⟨update_self .., ?_⟩
    rw [hesp]
    exact h.strings.congr fun x hx _ => update_of_ne (by omega) ..
  case fill =>
    have := h.fill
    simp only [Userprog.strings, List.flatMap_cons, List.cons_append, List.length_cons] at this ⊢
    omega
  case pointers =>
    simp only [List.length_cons, show s.esp - 1 + (w.length + 1) + 1 = s.esp + w.length + 1 by omega]
    refine h.pointers.congr fun x _ hx => update_of_ne ?_ ..
    have := h.argv
    have := h.apart
    simp only [List.length_append, starts_length, List.length_singleton] at hx
    omega
  case argv => exact h.argv
  case argc => exact h.argc
  case apart => exact h.apart

/-- At a run of spaces the string is given a pointer, and a null byte ends the
    next one. -/
theorem space {m' : Memory} (h : Pushed low top s w fs) (hroom : low < s.esp)
    (hesp : s.esp ≤ physBase) (hm : store32 s.mem (s.argv - 4) s.esp = some m)
    (hm' : store8 m (s.esp - 1) 0 = some m') :
    Pushed low top ⟨s.esp - 1, s.argv - 4, s.argc + 1, m'⟩ [] (w :: fs) := by
  obtain ⟨rfl, hargv, -⟩ := store32_eq hm
  obtain ⟨rfl, -, -⟩ := store8_eq hm'
  have hbase : 4 ≤ physBase - pgSize ∧ physBase < 2 ^ 32 := by decide
  have htop := h.argv
  have hlow := h.apart
  have hkept : ∀ x, x ≠ s.esp - 1 → (x < s.argv - 4 ∨ s.argv ≤ x) →
      update (Base.setWord s.mem (s.argv - 4) s.esp) (s.esp - 1) 0 x = s.mem x := by
    intro x hne hx
    rw [update_of_ne hne, Base.setWord_of_not_mem (by omega)]
  constructor
  case strings =>
    refine ⟨update_self .., ?_⟩
    rw [Nat.sub_add_cancel (by omega)]
    exact h.strings.congr fun x hx _ => hkept x (by omega) (by omega)
  case fill =>
    have := h.fill
    simp only [Userprog.strings, List.flatMap_cons, List.nil_append, List.length_append,
      List.length_singleton] at this ⊢
    omega
  case pointers =>
    simp only [List.length_nil, Nat.add_zero, Nat.sub_add_cancel (show 1 ≤ s.esp by omega)]
    refine ⟨?_, ?_⟩
    · rw [Base.word_congr fun x _ hx => update_of_ne (by omega) ..,
        Base.word_setWord_self (by omega)]
    · rw [Nat.sub_add_cancel (by omega)]
      refine h.pointers.congr fun x hx hlt => ?_
      simp only [List.length_append, starts_length, List.length_singleton] at hlt
      exact hkept x (by omega) (by omega)
  case argv =>
    simp only [List.length_cons]
    omega
  case argc => simp [h.argc]
  case apart => exact h.apart

/-- The loop, by induction on the characters that are left. -/
theorem loop {l : List UInt8} (h : Pushed low top s w fs) (hroom : low + l.length ≤ s.esp)
    (hrun : pushLoop l s = some s') :
    ∃ w' fs', pushFields l w fs = w' :: fs' ∧ Pushed low top s' w' fs' ∧ low ≤ s'.esp := by
  fun_induction pushLoop l s generalizing w fs with
  | case1 s =>
    cases hrun
    exact ⟨w, fs, by rw [pushFields], h, hroom⟩
  | case2 rest s ih =>
    obtain ⟨m, hm, hrun⟩ := Option.bind_eq_some_iff.mp hrun
    obtain ⟨m', hm', hrun⟩ := Option.bind_eq_some_iff.mp hrun
    have hle := (List.dropWhile_suffix (l := rest) (· == 32)).length_le
    rw [List.length_cons] at hroom
    have hesp : s.esp ≤ physBase := by have := h.fill; omega
    rw [pushFields, if_pos rfl]
    exact ih m' (h.space (by omega) hesp hm hm') (by simp only; omega) hrun
  | case3 ch rest s hch ih =>
    obtain ⟨m, hm, hrun⟩ := Option.bind_eq_some_iff.mp hrun
    rw [List.length_cons] at hroom
    rw [pushFields, if_neg hch]
    exact ih m (h.char (by omega) hm) (by simp only; omega) hrun

end Pushed

/-- Every string is found where it starts. -/
theorem starts_spec {m : Memory} {low a : Nat} {fs : List (List UInt8)} (hlow : low ≤ a)
    (hend : a + (strings fs).length ≤ physBase) (h : BytesAt m a (strings fs)) :
    List.Forall₂ (fun p w => low ≤ p ∧ p + w.length < physBase ∧ BytesAt m p (w ++ [0]))
      (starts a fs) fs := by
  induction fs generalizing a with
  | nil => exact .nil
  | cons f fs ih =>
    simp only [strings, List.flatMap_cons, List.length_append, List.length_singleton] at hend h
    obtain ⟨h₁, h₂⟩ := h.append
    rw [List.length_append, List.length_singleton, ← Nat.add_assoc] at h₂
    exact .cons ⟨hlow, by omega, h₁⟩ (ih (by omega) (by simp only [strings]; omega) h₂)

/-- The stack a program is started with for the arguments `ws`: from `esp` on a
    return address, `argc` and `argv`; then the array, aligned and ended by a
    null pointer; above it the arguments, each ended by a null byte. -/
structure HoldsArguments (m : Memory) (esp : Nat) (ws : List (List UInt8)) : Prop where
  frame : WordsAt m esp [0, ws.length, esp + 12]
  aligned : (esp + 12) % 4 = 0
  array : ∃ ptrs, WordsAt m (esp + 12) (ptrs ++ [0]) ∧
    List.Forall₂ (fun p w => esp + 12 + 4 * (ws.length + 1) ≤ p ∧ p + w.length < physBase ∧
      BytesAt m p (w ++ [0])) ptrs ws

/-- The end of `setup_stack`, once the loop is through. -/
theorem Pushed.finish {low top : Nat} {s : Push} {w : List UInt8} {fs : List (List UInt8)}
    {m₁ m₂ m₃ m₄ : Memory} (h : Pushed low top s w fs) (hesp : low ≤ s.esp) (htop : top % 4 = 0)
    (hm₁ : store32 s.mem (s.argv - 4) s.esp = some m₁)
    (hm₂ : store32 m₁ (s.argv - 8) (s.argv - 4) = some m₂)
    (hm₃ : store32 m₂ (s.argv - 12) s.argc = some m₃)
    (hm₄ : store32 m₃ (s.argv - 16) 0 = some m₄) :
    HoldsArguments m₄ (s.argv - 16) (w :: fs) := by
  obtain ⟨rfl, -, -⟩ := store32_eq hm₁
  obtain ⟨rfl, -, -⟩ := store32_eq hm₂
  obtain ⟨rfl, -, -⟩ := store32_eq hm₃
  obtain ⟨rfl, hlast, -⟩ := store32_eq hm₄
  have hbase : 16 ≤ physBase - pgSize ∧ physBase < 2 ^ 32 := by decide
  have hargv := h.argv
  have hlow := h.apart
  have hfill := h.fill
  have hargc := h.argc
  rw [show s.argv - 4 = s.argv - 16 + 12 by omega, show s.argv - 8 = s.argv - 16 + 8 by omega,
    show s.argv - 12 = s.argv - 16 + 4 by omega]
  generalize ha : s.argv - 16 = a at *
  have hkept : ∀ x, a + 16 ≤ x → Base.setWord (Base.setWord (Base.setWord (Base.setWord s.mem
      (a + 12) s.esp) (a + 8) (a + 12)) (a + 4) s.argc) a 0 x = s.mem x := by
    intro x hx
    rw [Base.setWord_of_not_mem (by omega), Base.setWord_of_not_mem (by omega),
      Base.setWord_of_not_mem (by omega), Base.setWord_of_not_mem (by omega)]
  constructor
  case frame =>
    refine ⟨Base.word_setWord_self (by omega), ?_, ?_, trivial⟩
    · rw [Base.word_setWord_of_disjoint (by omega), Base.word_setWord_self (by omega), hargc]
      rfl
    · rw [Base.word_setWord_of_disjoint (by omega), Base.word_setWord_of_disjoint (by omega),
        Base.word_setWord_self (by omega)]
  case aligned => omega
  case array =>
    refine ⟨starts s.esp (w :: fs), ⟨?_, ?_⟩, ?_⟩
    · rw [Base.word_setWord_of_disjoint (by omega), Base.word_setWord_of_disjoint (by omega),
        Base.word_setWord_of_disjoint (by omega), Base.word_setWord_self (by omega)]
    · have hptr := h.pointers
      rw [show s.argv = a + 12 + 4 by omega] at hptr
      exact hptr.congr fun x hx _ => hkept x (by omega)
    · refine starts_spec ?_ (by omega) (h.strings.congr fun x hx _ => hkept x (by omega))
      rw [List.length_cons]
      omega

/-- A command line that fits is put on the stack as the arguments the loop makes
    of it. -/
theorem setupArguments_holds {cmdLine : List UInt8} (m : Memory)
    (hfit : argumentBytes cmdLine ≤ pgSize) :
    ∃ m' esp, setupArguments m cmdLine = some (m', esp) ∧
      HoldsArguments m' esp (pushFields cmdLine.reverse [] []) := by
  have hlen : cmdLine.length < pgSize := by
    rw [argumentBytes] at hfit
    omega
  obtain ⟨⟨m₄, esp⟩, hrun⟩ := Option.isSome_iff_exists.mp
    ((setupArguments_isSome_iff (m := m) hlen).mpr hfit)
  refine ⟨m₄, esp, hrun, ?_⟩
  obtain ⟨s, hs, hrun⟩ := Option.bind_eq_some_iff.mp hrun
  obtain ⟨m₂, hm₂, hrun⟩ := Option.bind_eq_some_iff.mp hrun
  obtain ⟨m₃, hm₃, hrun⟩ := Option.bind_eq_some_iff.mp hrun
  obtain ⟨m₄, hm₄, heq⟩ := Option.map_eq_some_iff.mp hrun
  cases heq
  obtain ⟨m₀, hm₀, hs⟩ := Option.bind_eq_some_iff.mp hs
  obtain ⟨s₁, hs₁, hs⟩ := Option.bind_eq_some_iff.mp hs
  obtain ⟨m₁, hm₁, rfl⟩ := Option.map_eq_some_iff.mp hs
  rw [pushLoop, if_neg (by decide)] at hs₁
  obtain ⟨m', hm', hs₁⟩ := Option.bind_eq_some_iff.mp hs₁
  -- the null byte of the command line and the null pointer are the first to be stored
  have hpg : pgSize = 4096 := rfl
  have hbase : physBase = 3221225472 := rfl
  have hstart : Pushed (physBase - 1 - cmdLine.length) _ _ [] [] :=
    .start (by omega) (by omega) hm₀ hm'
  have hroom : physBase - 1 - cmdLine.length + cmdLine.reverse.length ≤ physBase - 1 := by
    rw [List.length_reverse]
    omega
  obtain ⟨w, fs, hfields, hpushed, hlow⟩ := hstart.loop hroom hs₁
  rw [hfields]
  simp only [Nat.sub_sub] at hm₂ hm₃ hm₄ ⊢
  exact hpushed.finish hlow (by omega) hm₁ hm₂ hm₃ hm₄

/-! ## The words of the command line -/

/-- The words of a command line: its maximal parts without spaces. -/
def words (cmdLine : List UInt8) : List (List UInt8) := (cmdLine.splitOn 32).filter (· ≠ [])

/-- Spaces add no word. -/
theorem splitOn_spaces {r t : List UInt8} (h : ∀ ch ∈ r, ch = 32) :
    ∃ g, (r ++ 32 :: t).splitOn 32 = [] :: g ∧ g.filter (· ≠ []) = words t := by
  induction r with
  | nil =>
    refine ⟨t.splitOn 32, ?_, rfl⟩
    rw [List.nil_append, List.splitOn, List.splitOnP_cons_eq_if_modifyHead, if_pos (by decide)]
    rfl
  | cons ch r ih =>
    obtain ⟨g, hg, hwords⟩ := ih fun x hx => h x (List.mem_cons_of_mem _ hx)
    refine ⟨[] :: g, ?_, by rw [← hwords]; rfl⟩
    rw [h ch List.mem_cons_self, List.cons_append, List.splitOn,
      List.splitOnP_cons_eq_if_modifyHead, if_pos (by decide), ← hg]
    rfl

/-- The strings that are not empty are the words. -/
theorem pushFields_filter {l w t : List UInt8} {fs g : List (List UInt8)}
    (ht : t.splitOn 32 = w :: g) (hg : g.filter (· ≠ []) = fs.filter (· ≠ [])) :
    (pushFields l w fs).filter (· ≠ []) = words (l.reverse ++ t) := by
  fun_induction pushFields l w fs generalizing t g with
  | case1 w fs =>
    rw [List.reverse_nil, List.nil_append, words, ht, List.filter_cons, List.filter_cons, hg]
  | case2 rest w fs ih =>
    obtain ⟨g', hsplit, hwords⟩ := splitOn_spaces (t := t)
      (r := (rest.takeWhile (· == 32)).reverse) fun x hx => by
        simpa using List.mem_takeWhile_imp (List.mem_reverse.mp hx)
    rw [ih hsplit ?_]
    · rw [← List.append_assoc, ← List.reverse_append, List.takeWhile_append_dropWhile,
        List.reverse_cons, List.append_assoc]
      rfl
    · rw [hwords, words, ht, List.filter_cons, List.filter_cons, hg]
  | case3 ch rest w fs hch ih =>
    rw [List.reverse_cons, List.append_assoc]
    refine ih ?_ hg
    rw [List.singleton_append, List.splitOn, List.splitOnP_cons_eq_if_modifyHead,
      if_neg (by simpa using hch)]
    exact congrArg _ ht

/-- An empty string comes from a run of spaces at an end. -/
theorem pushFields_ne_nil_iff (l w : List UInt8) (fs : List (List UInt8)) :
    (∀ f ∈ pushFields l w fs, f ≠ []) ↔
      (∀ f ∈ fs, f ≠ []) ∧ (w ≠ [] ∨ l ≠ [] ∧ l.head? ≠ some 32) ∧ l.getLast? ≠ some 32 := by
  fun_induction pushFields l w fs with
  | case1 w fs => simp [and_comm]
  | case2 rest w fs ih =>
    have hsplit : 32 :: rest = 32 :: rest.takeWhile (· == 32) ++ rest.dropWhile (· == 32) := by
      rw [List.cons_append, List.takeWhile_append_dropWhile]
    rw [ih]
    cases hrest : rest.dropWhile (· == 32) with
    | nil =>
      -- the line begins with these spaces
      have hspaces : ∀ x ∈ 32 :: rest, x = 32 := by
        simpa using List.dropWhile_eq_nil_iff.mp hrest
      have hlast : (32 :: rest).getLast? = some 32 := by
        rw [List.getLast?_eq_some_getLast (List.cons_ne_nil 32 rest),
          hspaces _ (List.getLast_mem _)]
      simp [hlast]
    | cons x r =>
      have hx : x ≠ 32 := by
        have hhead := List.head?_dropWhile_not (· == 32) rest
        rw [hrest] at hhead
        simpa using hhead
      rw [hrest] at hsplit
      rw [hsplit, List.getLast?_append, List.getLast?_eq_some_getLast (List.cons_ne_nil x r)]
      simpa [hx, and_assoc] using and_left_comm
  | case3 ch rest w fs hch ih =>
    rw [ih]
    cases rest <;> simp [hch]

/-- A command line that fits is put on the stack as its words, if and only if it
    is not empty and neither begins nor ends with a space. -/
theorem arguments_are_words_iff {cmdLine : List UInt8} (m : Memory)
    (hfit : argumentBytes cmdLine ≤ pgSize) :
    ∃ m' esp, setupArguments m cmdLine = some (m', esp) ∧
      (HoldsArguments m' esp (words cmdLine) ↔
        cmdLine ≠ [] ∧ cmdLine.head? ≠ some 32 ∧ cmdLine.getLast? ≠ some 32) := by
  obtain ⟨m', esp, hrun, hholds⟩ := setupArguments_holds m hfit
  refine ⟨m', esp, hrun, ?_⟩
  have hwords : (pushFields cmdLine.reverse [] []).filter (· ≠ []) = words cmdLine := by
    have hfilter := pushFields_filter (l := cmdLine.reverse) (t := []) (w := []) (g := []) rfl rfl
    rwa [List.reverse_reverse, List.append_nil] at hfilter
  have hcond := pushFields_ne_nil_iff cmdLine.reverse [] []
  have hall : (∀ f ∈ pushFields cmdLine.reverse [] [], f ≠ []) ↔
      cmdLine ≠ [] ∧ cmdLine.head? ≠ some 32 ∧ cmdLine.getLast? ≠ some 32 := by
    rw [hcond]
    simp
    tauto
  rw [← hall]
  constructor
  · -- the number of arguments on the stack is the number of strings
    intro hw
    have hlen : (words cmdLine).length = (pushFields cmdLine.reverse [] []).length :=
      hw.frame.2.1.symm.trans hholds.frame.2.1
    rw [← hwords, List.length_filter_eq_length_iff] at hlen
    intro f hf
    simpa using hlen f hf
  · intro hne
    rw [← hwords, List.filter_eq_self.mpr fun f hf => by simpa using hne f hf]
    exact hholds

/-- A line of two words. -/
theorem arguments_are_words_iff_two : argumentBytes [97, 32, 98] ≤ pgSize ∧
    words [97, 32, 98] = [[97], [98]] ∧
    ∃ m' esp, setupArguments (fun _ => 0) [97, 32, 98] = some (m', esp) ∧
      HoldsArguments m' esp (words [97, 32, 98]) := by
  have hfit : argumentBytes [97, 32, 98] ≤ pgSize := by
    simp [argumentBytes, spaceRuns, pgSize]
  obtain ⟨m', esp, hrun, hiff⟩ := arguments_are_words_iff (fun _ => 0) hfit
  exact ⟨hfit, by decide, m', esp, hrun, hiff.mpr (by decide)⟩

/-- The line `a` with a space behind it has one word; the program is started with
    two arguments. -/
theorem trailing_space_adds_argument :
    ∃ m' esp, setupArguments (fun _ => 0) [97, 32] = some (m', esp) ∧ words [97, 32] = [[97]] ∧
      Base.word m' (esp + 4) = 2 := by
  have hfit : argumentBytes [97, 32] ≤ pgSize := by
    simp [argumentBytes, spaceRuns, pgSize]
  obtain ⟨m', esp, hrun, hholds⟩ := setupArguments_holds (fun _ => 0) hfit
  refine ⟨m', esp, hrun, by decide, ?_⟩
  have hfields : pushFields [97, 32].reverse [] [] = [[97], []] := by simp [pushFields]
  rw [hfields] at hholds
  exact hholds.frame.2.1

/-! ## Where the stores go -/

/-- The addresses of a word. -/
def wordAddrs (a : Nat) : List Nat := [a, a + 1, a + 2, a + 3]

/-- The addresses the loop of `push_arguments` stores to. -/
def pushAddrs : List UInt8 → Nat → Nat → List Nat
  | [], _, _ => []
  | ch :: rest, esp, argv =>
    if ch = 32 then
      wordAddrs (argv - 4) ++ (esp - 1) :: pushAddrs (rest.dropWhile (· == 32)) (esp - 1) (argv - 4)
    else (esp - 1) :: pushAddrs rest (esp - 1) argv
termination_by l => l.length
decreasing_by
  · have hle := (List.dropWhile_suffix (l := rest) (· == 32)).length_le
    simp only [List.length_cons]
    omega
  · simp

/-- All addresses `push_arguments` and `setup_stack` store to, whether or not
    they are in the stack page. -/
def stackAddrs (cmdLine : List UInt8) : List Nat :=
  let top := (physBase - cmdLine.length - 1) / 4 * 4 - 4
  let argv := top - 4 * spaceRuns cmdLine.reverse - 4
  wordAddrs top ++ pushAddrs (0 :: cmdLine.reverse) physBase top ++ wordAddrs argv ++
    wordAddrs (argv - 4) ++ wordAddrs (argv - 8) ++ wordAddrs (argv - 12)

theorem pushAddrs_bounds {l : List UInt8} {esp argv x : Nat} (hx : x ∈ pushAddrs l esp argv)
    (hesp : l.length ≤ esp) (hargv : 4 * spaceRuns l ≤ argv) :
    esp - l.length ≤ x ∧ x < esp ∨ argv - 4 * spaceRuns l ≤ x ∧ x < argv := by
  fun_induction pushAddrs l esp argv with
  | case1 => cases hx
  | case2 rest esp argv ih =>
    have hle := (List.dropWhile_suffix (l := rest) (· == 32)).length_le
    rw [spaceRuns, if_pos rfl] at hargv ⊢
    rw [List.length_cons] at hesp ⊢
    simp only [wordAddrs, List.mem_append, List.mem_cons, List.not_mem_nil, or_false] at hx
    rcases hx with hx | hx | hx
    · omega
    · omega
    · have := ih hx (by omega) (by omega)
      omega
  | case3 ch rest esp argv hch ih =>
    rw [spaceRuns, if_neg hch] at hargv ⊢
    rw [List.length_cons] at hesp ⊢
    rcases List.mem_cons.mp hx with hx | hx
    · omega
    · have := ih hx (by omega) hargv
      omega

/-- The addresses that `load` stores to when it builds the stack; `none` if it fails
    before. -/
def loadStores (env : LoadEnv) (cmdLine : List UInt8) : Option (List Nat) :=
  if reachesStack env cmdLine then some (stackAddrs cmdLine) else none

/-- The addresses are in the stack page exactly if the arguments fit into it. -/
theorem stackAddrs_inStack_iff {cmdLine : List UInt8} (hlen : cmdLine.length < pgSize) :
    (∀ a ∈ stackAddrs cmdLine, inStack a = true) ↔ argumentBytes cmdLine ≤ pgSize := by
  have hpg : pgSize = 4096 := rfl
  have hbase : physBase = 3221225472 := rfl
  simp only [stackAddrs, roundDown_eq hlen, argumentBytes, inStack, Bool.and_eq_true,
    decide_eq_true_eq]
  generalize hr : spaceRuns cmdLine.reverse = r at *
  constructor
  · -- the last store is the lowest
    intro hall
    have := hall (physBase - (cmdLine.length + 4) / 4 * 4 - 4 - 4 * r - 4 - 12) (by
      simp [wordAddrs])
    omega
  · intro hfit a ha
    simp only [List.mem_append, wordAddrs, List.mem_cons, List.not_mem_nil, or_false] at ha
    rcases ha with ((((ha | ha) | ha) | ha) | ha) | ha
    · omega
    · have := pushAddrs_bounds ha (by rw [List.length_cons, List.length_reverse]; omega)
        (by rw [spaceRuns_zero_cons, hr]; omega)
      rw [spaceRuns_zero_cons, hr, List.length_cons, List.length_reverse] at this
      omega
    · omega
    · omega
    · omega
    · omega

/-- For every program and every command line, `load` fails before it builds the stack or
    all its stores are in the stack page, if and only if the arguments fit into the page
    or it does not come to the stack. -/
theorem stack_stores_in_page_iff {cmdLine : List UInt8} (env : LoadEnv) (m : Memory)
    (hlen : cmdLine.length < pgSize) :
    ((loadStores env cmdLine = none ∨
        ∃ l, loadStores env cmdLine = some l ∧ ∀ a ∈ l, inStack a = true) ↔
      (reachesStack env cmdLine = true → argumentBytes cmdLine ≤ pgSize)) ∧
    ((setupArguments m cmdLine).isSome ↔ ∀ a ∈ stackAddrs cmdLine, inStack a = true) := by
  have haddrs := stackAddrs_inStack_iff hlen
  refine ⟨?_, (setupArguments_isSome_iff hlen).trans haddrs.symm⟩
  rw [loadStores]
  by_cases hreach : reachesStack env cmdLine = true
  · simp [hreach, haddrs]
  · simp [hreach]

/-- Everything that `load` asks for is there. -/
def LoadEnv.all : LoadEnv := ⟨true, true, fun _ => true, true, true⟩

/-- The line `a b`. -/
theorem stack_stores_in_page_iff_two : [97, 32, 98].length < pgSize ∧
    ∃ l, loadStores .all [97, 32, 98] = some l ∧ ∀ a ∈ l, inStack a = true := by
  have hlen : [97, 32, 98].length < pgSize := by decide
  have hfit : argumentBytes [97, 32, 98] ≤ pgSize := by
    simp [argumentBytes, spaceRuns, pgSize]
  have hreach : reachesStack .all [97, 32, 98] = true := by decide +kernel
  refine ⟨hlen, ((stack_stores_in_page_iff .all (fun _ => 0) hlen).1.mpr fun _ => hfit).resolve_left ?_⟩
  rw [loadStores, if_pos hreach]
  exact Option.some_ne_none _

/-- A line of 4095 characters: the program `a` with one long argument. -/
def longLine : List UInt8 := [97, 32] ++ List.replicate 4093 97

theorem longLine_length : longLine.length = 4095 := by
  rw [longLine, List.length_append, List.length_replicate]
  rfl

theorem reachesStack_longLine : reachesStack .all longLine = true := by
  have hname : programName longLine = some [97] := rfl
  rw [reachesStack, hname]
  decide +kernel

/-- The null pointer behind its arguments is stored below the stack page. -/
theorem stack_stores_leave_page : longLine.length < pgSize ∧
    ∃ l, loadStores .all longLine = some l ∧ physBase - 4100 ∈ l ∧
      inStack (physBase - 4100) = false := by
  have htop : (physBase - 4095 - 1) / 4 * 4 - 4 = physBase - 4100 := by decide
  refine ⟨by rw [longLine_length]; decide, stackAddrs longLine, ?_, ?_, by decide⟩
  · rw [loadStores, if_pos reachesStack_longLine]
  · simp only [stackAddrs, longLine_length, htop, List.mem_append]
    exact Or.inl (Or.inl (Or.inl (Or.inl (Or.inl List.mem_cons_self))))

end Pintos.Userprog
