/-
  Pintos.Lib.String

  `memmove` and `strtok_r` (lib/string.c).

  `memmove` works on memory.  `strtok_r` works on the object that holds the string
  and its null byte: positions are indices, and an access behind the null byte is
  one outside the object.  A call returns `none` where an assertion fails, where
  it accesses anything else, or where its fuel does not suffice.

  Results:
  - `memmove` moves every range, but returns a pointer behind the range where it
    copies forwards
  - calls of `strtok_r` go through the words of a string
-/

import Pintos.Base.Memory
import Pintos.Lib.Ustar

namespace Pintos.Lib

open Pintos.Base Function

/-! ## `memmove` -/

/-- `while (size-- > 0) *dst++ = *src++;`, with the value of `dst` behind the loop. -/
def moveForwards : Nat → Nat → Nat → Memory → Memory × Nat
  | 0, dst, _, m => (m, dst)
  | size + 1, dst, src, m => moveForwards size (dst + 1) (src + 1) (update m dst (m src))

/-- `while (size-- > 0) *--dst = *--src;` -/
def moveBackwards : Nat → Nat → Nat → Memory → Memory × Nat
  | 0, dst, _, m => (m, dst)
  | size + 1, dst, src, m =>
    moveBackwards size (dst - 1) (src - 1) (update m (dst - 1) (m (src - 1)))

/-- `memmove`: the memory and the pointer that is returned. -/
def memmove (m : Memory) (dst src size : Nat) : Option (Memory × Nat) :=
  if (dst = 0 ∨ src = 0) ∧ size ≠ 0 then none
  else if dst < src then some (moveForwards size dst src m)
  else some (moveBackwards size (dst + size) (src + size) m)

/-- The range at `dst` holds what was at `src`, and nothing else has changed. -/
def Moved (m m' : Memory) (dst src size : Nat) : Prop :=
  (∀ i < size, m' (dst + i) = m (src + i)) ∧ ∀ a, a < dst ∨ dst + size ≤ a → m' a = m a

variable {dst src size : Nat}

/-- Going up, the bytes that are still to be read lie above those written. -/
theorem moveForwards_moved (m : Memory) (h : dst < src) :
    Moved m (moveForwards size dst src m).1 dst src size ∧
      (moveForwards size dst src m).2 = dst + size := by
  induction size generalizing dst src m with
  | zero => exact ⟨⟨fun i hi => absurd hi i.not_lt_zero, fun _ _ => rfl⟩, rfl⟩
  | succ size ih =>
    obtain ⟨⟨hin, hout⟩, hdst⟩ := ih (update m dst (m src)) (Nat.add_lt_add_right h 1)
    refine ⟨⟨fun i hi => ?_, fun a ha => ?_⟩, hdst.trans (by omega)⟩
    · rcases i with _ | i
      · exact (hout dst (by omega)).trans (update_self ..)
      · rw [Nat.add_comm i, ← Nat.add_assoc, ← Nat.add_assoc]
        exact (hin i (by omega)).trans (update_of_ne (by omega) ..)
    · exact (hout a (by omega)).trans (update_of_ne (by omega) ..)

/-- Going down, they lie below. -/
theorem moveBackwards_moved (m : Memory) (h : src ≤ dst) :
    Moved m (moveBackwards size (dst + size) (src + size) m).1 dst src size ∧
      (moveBackwards size (dst + size) (src + size) m).2 = dst := by
  induction size generalizing m with
  | zero => exact ⟨⟨fun i hi => absurd hi i.not_lt_zero, fun _ _ => rfl⟩, rfl⟩
  | succ size ih =>
    obtain ⟨⟨hin, hout⟩, hdst⟩ := ih (update m (dst + size) (m (src + size)))
    refine ⟨⟨fun i hi => ?_, fun a ha => ?_⟩, hdst⟩
    · rcases Nat.eq_or_lt_of_le (Nat.le_of_lt_succ hi) with rfl | hi
      · exact (hout _ (by omega)).trans (update_self ..)
      · exact (hin i hi).trans (update_of_ne (by omega) ..)
    · exact (hout a (by omega)).trans (update_of_ne (by omega) ..)

/-- `memmove` moves the range and returns its address if and only if it copies
    backwards, or nothing. -/
theorem memmove_contract_iff (m : Memory) (dst src size : Nat) :
    (∃ m', memmove m dst src size = some (m', dst) ∧ Moved m m' dst src size) ↔
      size = 0 ∨ 0 < src ∧ src ≤ dst := by
  constructor
  · rintro ⟨m', hrun, -⟩
    rw [memmove] at hrun
    split at hrun
    case isTrue => cases hrun
    case isFalse hnull =>
      split at hrun
      case isTrue hlt =>
        have hdst : dst + size = dst := by
          rw [← (moveForwards_moved m hlt).2]
          exact congrArg Prod.snd (Option.some.inj hrun)
        omega
      case isFalse hge => omega
  · intro h
    rw [memmove, if_neg (by omega)]
    split
    case isTrue hlt =>
      obtain rfl : size = 0 := by omega
      exact ⟨m, rfl, (moveForwards_moved m hlt).1⟩
    case isFalse hge =>
      obtain ⟨hmoved, hdst⟩ := @moveBackwards_moved dst src size m (Nat.le_of_not_lt hge)
      exact ⟨_, congrArg some (Prod.ext rfl hdst), hmoved⟩

/-- Two bytes are moved down by one; the pointer returned is behind them. -/
theorem memmove_returns_end :
    ∃ m', memmove UInt8.ofNat 4 5 2 = some (m', 6) ∧ m' 4 = 5 ∧ m' 5 = 6 :=
  ⟨_, rfl, rfl, rfl⟩

/-! ## `strtok_r` -/

namespace Tokenizer

/-- `strchr (delimiters, c) != NULL`; the null byte behind the delimiters is found,
    too. -/
def finds (delimiters : Bytes) (c : UInt8) : Bool := (strchr c (delimiters ++ [0])).isSome

/-- `while (!stop (*s)) s++;` -/
def scanLoop (stop : UInt8 → Bool) (str : Bytes) : Nat → Nat → Option Nat
  | 0, _ => none
  | fuel + 1, s => str[s]?.bind fun c => if stop c then some s else scanLoop stop str fuel (s + 1)

/-- `strtok_r`: the token, the string and `*save_ptr`.  A null pointer is `none`. -/
def strtokR (delimiters str : Bytes) (s : Option Nat) (savePtr : Nat) :
    Option (Option Nat × Bytes × Nat) :=
  -- delimiters are skipped, but not the null byte
  (scanLoop (fun c => !finds delimiters c || c = 0) str (str.length + 1) (s.getD savePtr)).bind
    fun token =>
      if str[token]? = some 0 then some (none, str, token)
      else
        (scanLoop (finds delimiters) str (str.length + 1) token).bind fun s =>
          if str[s]? ≠ some 0 then some (some token, str.set s 0, s + 1)
          else some (some token, str, s)

/-- Calls until one returns a null pointer: the tokens, and what is left. -/
def tokenise (delimiters : Bytes) : Nat → Bytes → Option Nat → Nat → Option (List Nat × Bytes × Nat)
  | 0, _, _, _ => none
  | fuel + 1, str, s, savePtr =>
    (strtokR delimiters str s savePtr).bind fun r =>
      match r with
      | (none, str, savePtr) => some ([], str, savePtr)
      | (some token, str, savePtr) =>
        (tokenise delimiters fuel str none savePtr).map fun r => (token :: r.1, r.2)

/-- The maximal substrings that are not empty and without delimiters. -/
def words (delimiters str : Bytes) : List Bytes :=
  (str.splitOnP (· ∈ delimiters)).filter (· ≠ [])

/-- The string at a position. -/
def stringAt (str : Bytes) (s : Nat) : Bytes := (str.drop s).takeWhile (· ≠ 0)

variable {delimiters pre l r ds word str : Bytes} {c d : UInt8} {fuel savePtr : Nat} {s : Option Nat}

theorem finds_iff : finds delimiters c = true ↔ c ∈ delimiters ∨ c = 0 := by
  have h : ∀ l : Bytes, (strchr c l).isSome = true ↔ c ∈ l := by
    intro l
    induction l with
    | nil => simp [strchr]
    | cons x l ih =>
      rw [strchr, List.mem_cons]
      split
      case isTrue h => simp [h]
      case isFalse h => simp [ih, Ne.symm h]
  simp [finds, h]

/-- The loop goes over `l` and stops behind it. -/
theorem scanLoop_eq {stop : UInt8 → Bool} (hl : ∀ x ∈ l, stop x = false) (hc : stop c = true)
    (hfuel : l.length < fuel) :
    scanLoop stop (pre ++ l ++ c :: r) fuel pre.length = some (pre ++ l).length := by
  induction l generalizing pre fuel with
  | nil =>
    obtain ⟨fuel, rfl⟩ := Nat.exists_eq_succ_of_ne_zero (Nat.ne_zero_of_lt hfuel)
    simp [scanLoop, hc]
  | cons x l ih =>
    obtain ⟨fuel, rfl⟩ := Nat.exists_eq_succ_of_ne_zero (Nat.ne_zero_of_lt hfuel)
    have hnext := @ih (pre ++ [x]) fuel (fun y hy => hl y (List.mem_cons_of_mem _ hy))
      (Nat.lt_of_succ_lt_succ hfuel)
    simp only [List.length_append, List.length_cons, List.length_nil, List.append_assoc,
      List.cons_append, List.nil_append, Nat.zero_add] at hnext
    simp only [scanLoop, List.append_assoc, List.cons_append, List.getElem?_append_right le_rfl,
      Nat.sub_self, List.getElem?_cons_zero, Option.bind_some, hl x List.mem_cons_self,
      Bool.false_eq_true, if_false, hnext, List.length_append, List.length_cons]

/-- Delimiters up to the null byte: there is no token. -/
theorem strtokR_none (hds : ∀ x ∈ ds, x ∈ delimiters ∧ x ≠ 0) (hs : s.getD savePtr = pre.length) :
    strtokR delimiters (pre ++ ds ++ [0]) s savePtr =
      some (none, pre ++ ds ++ [0], (pre ++ ds).length) := by
  rw [strtokR, hs, scanLoop_eq (fun x hx => ?_) (by simp) (by simp; omega), Option.bind_some,
    if_pos (by simp)]
  simp [finds_iff.mpr (Or.inl (hds x hx).1), (hds x hx).2]

/-- A word behind delimiters is a token; a delimiter behind it is overwritten. -/
theorem strtokR_some (hds : ∀ x ∈ ds, x ∈ delimiters ∧ x ≠ 0)
    (hword : ∀ x ∈ word, x ∉ delimiters ∧ x ≠ 0) (hne : word ≠ []) (hc : c ∈ delimiters ∨ c = 0)
    (hs : s.getD savePtr = pre.length) :
    strtokR delimiters (pre ++ ds ++ word ++ c :: r) s savePtr =
      some (some (pre ++ ds).length, pre ++ ds ++ word ++ 0 :: r,
        (pre ++ ds ++ word).length + if c = 0 then 0 else 1) := by
  obtain ⟨x, word, rfl⟩ := List.exists_cons_of_ne_nil hne
  have hx := hword x List.mem_cons_self
  have hskip : scanLoop (fun c => !finds delimiters c || c = 0) (pre ++ ds ++ x :: word ++ c :: r)
      ((pre ++ ds ++ x :: word ++ c :: r).length + 1) pre.length = some (pre ++ ds).length := by
    rw [List.append_assoc, List.cons_append]
    refine scanLoop_eq (fun y hy => ?_) ?_ (by simp; omega)
    · simp [finds_iff.mpr (Or.inl (hds y hy).1), (hds y hy).2]
    · simp [← Bool.not_eq_true, finds_iff, hx.1, hx.2]
  have hscan : scanLoop (finds delimiters) (pre ++ ds ++ x :: word ++ c :: r)
      ((pre ++ ds ++ x :: word ++ c :: r).length + 1) (pre ++ ds).length =
      some (pre ++ ds ++ x :: word).length := by
    refine scanLoop_eq (fun y hy => ?_) (finds_iff.mpr hc) (by simp; omega)
    rw [← Bool.not_eq_true, finds_iff]
    exact fun h => h.elim (hword y hy).1 (hword y hy).2
  have hend : (pre ++ ds ++ x :: word ++ c :: r)[(pre ++ ds ++ x :: word).length]? = some c := by
    rw [List.getElem?_append_right le_rfl, Nat.sub_self, List.getElem?_cons_zero]
  have hset : (pre ++ ds ++ x :: word ++ c :: r).set (pre ++ ds ++ x :: word).length 0 =
      pre ++ ds ++ x :: word ++ 0 :: r := by
    rw [List.set_append_right _ _ le_rfl, Nat.sub_self, List.set_cons_zero]
  rw [strtokR, hs, hskip, Option.bind_some, if_neg, hscan, Option.bind_some, hend, hset]
  · by_cases hzero : c = 0
    · simp [hzero]
    · simp [hzero]
  · rw [List.append_assoc, List.getElem?_append_right le_rfl, Nat.sub_self]
    simpa using hx.2

theorem stringAt_word (hword : ∀ x ∈ word, x ≠ 0) : stringAt (pre ++ word ++ 0 :: r) pre.length = word := by
  rw [stringAt, List.append_assoc, List.drop_left, List.takeWhile_append_of_pos (by simpa using hword)]
  simp

theorem words_skip (hds : ∀ x ∈ ds, x ∈ delimiters) : words delimiters (ds ++ l) = words delimiters l := by
  induction ds with
  | nil => rfl
  | cons x ds ih =>
    have hsplit : List.splitOnP (· ∈ delimiters) ([] ++ x :: (ds ++ l)) =
        [] :: List.splitOnP (· ∈ delimiters) (ds ++ l) :=
      List.splitOnP_append_cons_of_forall_mem (by simp) x (by simpa using hds x List.mem_cons_self) _
    rw [List.nil_append] at hsplit
    rw [List.cons_append, words, hsplit]
    exact ih fun y hy => hds y (List.mem_cons_of_mem _ hy)

/-- A list up to the first element without the property, if there is one. -/
theorem exists_split (p : UInt8 → Prop) (l : Bytes) :
    ∃ l₁ l₂, l = l₁ ++ l₂ ∧ (∀ x ∈ l₁, p x) ∧ (l₂ = [] ∨ ∃ x r, l₂ = x :: r ∧ ¬ p x) := by
  induction l with
  | nil => exact ⟨[], [], rfl, by simp, Or.inl rfl⟩
  | cons x l ih =>
    by_cases hx : p x
    · obtain ⟨l₁, l₂, rfl, h₁, h₂⟩ := ih
      exact ⟨x :: l₁, l₂, rfl, List.forall_mem_cons.mpr ⟨hx, h₁⟩, h₂⟩
    · exact ⟨[], x :: l, rfl, by simp, Or.inr ⟨x, l, rfl, hx⟩⟩

/-- What has become of a character. -/
def Overwritten (delimiters : Bytes) (c c' : UInt8) : Prop := c' = c ∨ c ∈ delimiters ∧ c' = 0

theorem overwritten_refl (l : Bytes) : List.Forall₂ (Overwritten delimiters) l l :=
  List.forall₂_same.mpr fun _ _ => Or.inl rfl

/-- By induction on the calls: what is before the saved position is done with, and
    what is behind it is still the original string. -/
theorem tokenise_words (hl : 0 ∉ l) (hfuel : l.length < fuel) (hs : s.getD savePtr = pre.length) :
    ∃ toks l' savePtr', tokenise delimiters fuel (pre ++ l ++ [0]) s savePtr =
        some (toks, pre ++ l' ++ [0], savePtr') ∧ List.Forall₂ (Overwritten delimiters) l l' ∧
      toks.map (stringAt (pre ++ l' ++ [0])) = words delimiters l ∧
      strtokR delimiters (pre ++ l' ++ [0]) none savePtr' =
        some (none, pre ++ l' ++ [0], savePtr') := by
  induction fuel generalizing pre l s savePtr with
  | zero => omega
  | succ fuel ih =>
    obtain ⟨ds, l₁, rfl, hds, hl₁⟩ := exists_split (· ∈ delimiters) l
    have hds' : ∀ x ∈ ds, x ∈ delimiters ∧ x ≠ 0 := fun x hx =>
      ⟨hds x hx, fun h => hl (h ▸ List.mem_append_left _ hx)⟩
    rcases hl₁ with rfl | ⟨x, r, rfl, hx⟩
    · rw [List.append_nil] at hl ⊢
      refine ⟨[], ds, (pre ++ ds).length, ?_, overwritten_refl ds, ?_, ?_⟩
      · rw [tokenise, strtokR_none hds' hs]
        rfl
      · rw [← List.append_nil ds, words_skip hds]
        rfl
      · simpa using @strtokR_none delimiters (pre ++ ds) [] (pre ++ ds).length none (by simp) rfl
    · obtain ⟨word, l₂, heq, hword, hl₂⟩ := exists_split (· ∉ delimiters) (x :: r)
      rw [heq] at hl hfuel ⊢
      have hword' : ∀ x ∈ word, x ∉ delimiters ∧ x ≠ 0 := fun x hx =>
        ⟨hword x hx, fun h => hl (h ▸ List.mem_append_right _ (List.mem_append_left _ hx))⟩
      have hne : word ≠ [] := by
        rintro rfl
        rcases hl₂ with rfl | ⟨y, r', rfl, hy⟩
        · cases heq
        · cases heq
          exact hy hx
      have hpos := List.length_pos_of_ne_nil hne
      simp only [List.length_append] at hfuel
      rw [words_skip hds]
      rcases hl₂ with rfl | ⟨d, r', rfl, hd⟩
      · -- the null byte ends the word, and the next call finds it
        obtain ⟨toks, l', savePtr', hrest, hover, htoks, hend⟩ := @ih
          (pre ++ ds ++ word) [] (pre ++ ds ++ word).length none (by simp) (by simp; omega) rfl
        cases hover
        obtain rfl : toks = [] := List.map_eq_nil_iff.mp htoks
        have hrun := strtokR_some (r := []) hds' hword' hne (Or.inr rfl) hs
        have hat := @stringAt_word (pre ++ ds) [] word fun x hx => (hword' x hx).2
        refine ⟨[(pre ++ ds).length], ds ++ word, savePtr', ?_, ?_, ?_, ?_⟩ <;>
          simp only [List.append_nil, List.append_assoc, if_true, Nat.add_zero] at hrun hrest hend hat ⊢
        · simp only [tokenise, hrun, Option.bind_some, hrest, Option.map_some]
        · exact overwritten_refl _
        · rw [List.map_singleton, hat, words, List.splitOnP_eq_singleton (by simpa using hword)]
          simp [hne]
        · exact hend
      · have hd : d ∈ delimiters := not_not.mp hd
        have hd' : d ≠ 0 := by
          rintro rfl
          exact hl (by simp)
        have hl' : 0 ∉ r' := fun h => hl (by simp [h])
        obtain ⟨toks, l', savePtr', hrest, hover, htoks, hend⟩ := @ih
          (pre ++ ds ++ word ++ [0]) r' ((pre ++ ds ++ word).length + 1) none hl'
          (by rw [List.length_cons] at hfuel; omega) (by simp [Nat.add_assoc])
        have hrun := strtokR_some (r := r' ++ [0]) hds' hword' hne (Or.inl hd) hs
        have hat := @stringAt_word (pre ++ ds) (l' ++ [0]) word fun x hx => (hword' x hx).2
        simp only [List.append_assoc, List.cons_append, List.nil_append, if_neg hd'] at hrun hrest hend htoks hat
        refine ⟨(pre ++ ds).length :: toks, ds ++ word ++ 0 :: l', savePtr', ?_, ?_, ?_, ?_⟩
        · simp only [tokenise, List.append_assoc, List.cons_append, hrun, Option.bind_some, hrest,
            Option.map_some]
        · rw [← List.append_assoc]
          exact List.rel_append (overwritten_refl _) (.cons (Or.inr ⟨hd, rfl⟩) hover)
        · simp only [List.map_cons, List.append_assoc, List.cons_append, hat, htoks]
          rw [words, words, List.splitOnP_append_cons_of_forall_mem (by simpa using hword) _ (by simpa using hd)]
          simp [hne]
        · simpa only [List.append_assoc, List.cons_append] using hend

/-- Calls of `strtok_r` until one returns a null pointer go through the words of the
    string in order.  They access nothing behind its null byte, overwrite only
    delimiters, and further calls return null pointers. -/
theorem strtok_words {str : Bytes} (hstr : 0 ∉ str) (delimiters : Bytes) :
    ∃ fuel toks str' savePtr, tokenise delimiters fuel (str ++ [0]) (some 0) 0 =
        some (toks, str' ++ [0], savePtr) ∧
      toks.map (stringAt (str' ++ [0])) = words delimiters str ∧
      List.Forall₂ (Overwritten delimiters) str str' ∧
      strtokR delimiters (str' ++ [0]) none savePtr = some (none, str' ++ [0], savePtr) := by
  obtain ⟨toks, str', savePtr, hrun, hover, htoks, hend⟩ := 
    @tokenise_words delimiters [] str _ 0 (some 0) hstr (Nat.lt_succ_self _) rfl
  exact ⟨_, toks, str', savePtr, hrun, htoks, hover, hend⟩

/-- The words `a` and `b` of the string ` a, b`. -/
theorem strtok_words_two : ∃ fuel toks str' savePtr,
    tokenise [32, 44] fuel ([32, 97, 44, 32, 98] ++ [0]) (some 0) 0 = some (toks, str' ++ [0], savePtr) ∧
      toks.map (stringAt (str' ++ [0])) = [[97], [98]] := by
  obtain ⟨fuel, toks, str', savePtr, hrun, htoks, -⟩ :=
    @strtok_words [32, 97, 44, 32, 98] (by decide) [32, 44]
  exact ⟨fuel, toks, str', savePtr, hrun, htoks.trans (by decide)⟩

end Tokenizer

end Pintos.Lib
