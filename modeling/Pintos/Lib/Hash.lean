/-
  Pintos.Lib.Hash

  The hash table of lib/kernel/hash.c, with chains in the order of the lists of
  the source.  An element stands for the `struct hash_elem` that is linked into
  a chain; `list_remove` unlinks it from whatever chain it is in.

  Results:
  - every sequence of operations answers as a finite set keyed by equivalence
    under `less`, whether or not the allocations of `rehash` succeed
  - an iteration yields every element once
-/

import Pintos.Base.KeyedSet

namespace Pintos.Lib

open Function

open Base

/-- The functions a table is set up with: a strict weak order, and a hash
    function that agrees with it. -/
structure HashFuncs (α : Type*) where
  hash : α → UInt32
  less : α → α → Bool
  irrefl : ∀ a, less a a = false
  trans : ∀ a b c, less a b = true → less b c = true → less a c = true
  incomp_trans : ∀ a b c, less a b = false ∧ less b a = false → less b c = false ∧ less c b = false →
    less a c = false ∧ less c a = false
  agree : ∀ a b, less a b = false → less b a = false → hash a = hash b

/-- `hash_bytes`. -/
def hashBytes (buf : List UInt8) : UInt32 :=
  buf.foldl (fun hash b => (hash * 16777619) ^^^ b.toUInt32) 2166136261

/-- `struct hash`. -/
structure Hash (α : Type*) where
  elemCnt : Nat
  bucketCnt : Nat
  buckets : Nat → List α

variable {α : Type*}

/-- Equivalence under `less`. -/
def HashFuncs.setoid (F : HashFuncs α) : Setoid α where
  r a b := F.less a b = false ∧ F.less b a = false
  iseqv :=
    { refl := fun a => ⟨F.irrefl a, F.irrefl a⟩
      symm := fun h => ⟨h.2, h.1⟩
      trans := fun h h' => F.incomp_trans _ _ _ h h' }

/-! ## The operations -/

/-- `hash_init`, when its allocation succeeds. -/
def hashInit : Hash α := ⟨0, 4, fun _ => []⟩

/-- `find_bucket`: the index of the bucket. -/
def findBucket (F : HashFuncs α) (h : Hash α) (e : α) : Nat :=
  (F.hash e).toNat &&& (h.bucketCnt - 1)

/-- `find_elem`. -/
def findElem (F : HashFuncs α) (bucket : List α) (e : α) : Option α :=
  bucket.find? fun hi => !F.less hi e && !F.less e hi

/-- `turn_off_least_1bit`. -/
def turnOffLeast1bit (x : Nat) : Nat := x &&& (x - 1)

/-- `is_power_of_2`. -/
def isPowerOf2 (x : Nat) : Bool := x != 0 && turnOffLeast1bit x == 0

/-- The loop of `rehash` that turns bits off; the source does not enter it with
    0, for which it would not end. -/
def toPowerOf2 (x : Nat) : Nat :=
  if x = 0 ∨ isPowerOf2 x then x else toPowerOf2 (turnOffLeast1bit x)
termination_by x
decreasing_by
  have hle : turnOffLeast1bit x ≤ x - 1 := Nat.and_le_right
  omega

/-- The number of buckets `rehash` wants. -/
def newBucketCnt (elemCnt : Nat) : Nat :=
  toPowerOf2 (if elemCnt / 2 < 4 then 4 else elemCnt / 2)

/-- `list_push_front` on a bucket. -/
def Hash.pushFront (h : Hash α) (i : Nat) (e : α) : Hash α :=
  { h with buckets := update h.buckets i (e :: h.buckets i) }

/-- `rehash`; `ok` says whether its allocation succeeds. -/
def rehash (F : HashFuncs α) (h : Hash α) (ok : Bool) : Hash α :=
  if newBucketCnt h.elemCnt = h.bucketCnt then h
  else if ok = false then h
  else
    (List.range h.bucketCnt).foldl
      (fun h' i => (h.buckets i).foldl (fun h' e => h'.pushFront (findBucket F h' e) e) h')
      { h with bucketCnt := newBucketCnt h.elemCnt, buckets := fun _ => [] }

/-- `insert_elem`. -/
def insertElem (h : Hash α) (i : Nat) (e : α) : Hash α :=
  { h with elemCnt := h.elemCnt + 1 }.pushFront i e

variable [DecidableEq α]

/-- `remove_elem`. -/
def removeElem (h : Hash α) (e : α) : Hash α :=
  { h with elemCnt := h.elemCnt - 1, buckets := fun i => (h.buckets i).erase e }

/-- `hash_insert`. -/
def hashInsert (F : HashFuncs α) (h : Hash α) (new : α) (ok : Bool) : Hash α × Option α :=
  let i := findBucket F h new
  match findElem F (h.buckets i) new with
  | none => (rehash F (insertElem h i new) ok, none)
  | some old => (rehash F h ok, some old)

/-- `hash_replace`. -/
def hashReplace (F : HashFuncs α) (h : Hash α) (new : α) (ok : Bool) : Hash α × Option α :=
  let i := findBucket F h new
  match findElem F (h.buckets i) new with
  | none => (rehash F (insertElem h i new) ok, none)
  | some old => (rehash F (insertElem (removeElem h old) i new) ok, some old)

/-- `hash_find`. -/
def hashFind (F : HashFuncs α) (h : Hash α) (e : α) : Option α :=
  findElem F (h.buckets (findBucket F h e)) e

/-- `hash_delete`. -/
def hashDelete (F : HashFuncs α) (h : Hash α) (e : α) (ok : Bool) : Hash α × Option α :=
  match findElem F (h.buckets (findBucket F h e)) e with
  | none => (h, none)
  | some found => (rehash F (removeElem h found) ok, some found)

/-- The operations on a table. -/
inductive HashOp (α : Type*) where
  | insert (new : α)
  | replace (new : α)
  | delete (e : α)
  | find (e : α)

def hashStep (F : HashFuncs α) (h : Hash α) (ok : Bool) : HashOp α → Hash α × Option α
  | .insert new => hashInsert F h new ok
  | .replace new => hashReplace F h new ok
  | .delete e => hashDelete F h e ok
  | .find e => (h, hashFind F h e)

/-- A sequence of operations, each with the outcome of the allocation it may
    make, and their results. -/
def hashRun (F : HashFuncs α) : Hash α → List (HashOp α × Bool) → Hash α × List (Option α)
  | h, [] => (h, [])
  | h, (op, ok) :: ops =>
    let step := hashStep F h ok op
    let rest := hashRun F step.1 ops
    (rest.1, step.2 :: rest.2)

/-- The operations on a keyed set. -/
noncomputable def keyedStep {r : Setoid α} (s : KeyedSet r) : HashOp α → KeyedSet r × Option α
  | .insert new => (s.insert new, s.find new)
  | .replace new => (s.replace new, s.find new)
  | .delete e => (s.delete e, s.find e)
  | .find e => (s, s.find e)

noncomputable def keyedRun {r : Setoid α} : KeyedSet r → List (HashOp α) →
    KeyedSet r × List (Option α)
  | s, [] => (s, [])
  | s, op :: ops =>
    let step := keyedStep s op
    let rest := keyedRun step.1 ops
    (rest.1, step.2 :: rest.2)

/-! ## Iteration -/

omit [DecidableEq α]

/-- `struct hash_iterator`: the bucket, and how many of its elements have been
    passed (none when `elem` is the list head). -/
structure HashIterator where
  bucket : Nat
  passed : Nat

/-- `hash_first`. -/
def hashFirst : HashIterator := ⟨0, 0⟩

/-- The loop of `hash_next` at position `p` of bucket `b`. -/
def scanBuckets (h : Hash α) (b p : Nat) : Option (α × HashIterator) :=
  match (h.buckets b)[p]? with
  | some e => some (e, ⟨b, p + 1⟩)
  | none => if b + 1 ≥ h.bucketCnt then none else scanBuckets h (b + 1) 0
termination_by h.bucketCnt - b

/-- `hash_next`. -/
def hashNext (h : Hash α) (i : HashIterator) : Option (α × HashIterator) :=
  scanBuckets h i.bucket i.passed

/-- The elements `hash_next` returns, up to the null pointer. -/
inductive Iterates (h : Hash α) : HashIterator → List α → Prop
  | done {i : HashIterator} : hashNext h i = none → Iterates h i []
  | next {i i' : HashIterator} {e : α} {l : List α} : hashNext h i = some (e, i') →
      Iterates h i' l → Iterates h i (e :: l)

/-- The elements from position `p` of bucket `b` on. -/
def elemsFrom (h : Hash α) (b p : Nat) : List α :=
  (h.buckets b).drop p ++ (List.range' (b + 1) (h.bucketCnt - (b + 1))).flatMap h.buckets

theorem elemsFrom_last {h : Hash α} {b p : Nat} (hp : (h.buckets b)[p]? = none)
    (hb : h.bucketCnt ≤ b + 1) : elemsFrom h b p = [] := by
  rw [elemsFrom, List.drop_eq_nil_of_le (List.getElem?_eq_none_iff.mp hp)]
  have h0 : h.bucketCnt - (b + 1) = 0 := by omega
  rw [h0]
  rfl

theorem elemsFrom_next {h : Hash α} {b p : Nat} (hp : (h.buckets b)[p]? = none)
    (hb : b + 1 < h.bucketCnt) : elemsFrom h b p = elemsFrom h (b + 1) 0 := by
  rw [elemsFrom, List.drop_eq_nil_of_le (List.getElem?_eq_none_iff.mp hp), elemsFrom]
  have hsucc : h.bucketCnt - (b + 1) = h.bucketCnt - (b + 1 + 1) + 1 := by omega
  rw [hsucc, List.range'_succ]
  simp

theorem elemsFrom_elem {h : Hash α} {b p : Nat} {e : α} (hp : (h.buckets b)[p]? = some e) :
    elemsFrom h b p = e :: elemsFrom h b (p + 1) := by
  obtain ⟨hlt, heq⟩ := List.getElem?_eq_some_iff.mp hp
  rw [elemsFrom, elemsFrom, List.drop_eq_getElem_cons hlt, heq]
  rfl

theorem scanBuckets_spec (h : Hash α) (b p : Nat) (hb : b < h.bucketCnt) :
    elemsFrom h b p = [] ∧ scanBuckets h b p = none ∨
      ∃ e b' p', elemsFrom h b p = e :: elemsFrom h b' p' ∧ b' < h.bucketCnt ∧
        scanBuckets h b p = some (e, ⟨b', p'⟩) := by
  fun_induction scanBuckets h b p with
  | case1 b p e hp => exact Or.inr ⟨e, b, p + 1, elemsFrom_elem hp, hb, rfl⟩
  | case2 b p hp hlast => exact Or.inl ⟨elemsFrom_last hp hlast, rfl⟩
  | case3 b p hp hlast ih =>
    rw [elemsFrom_next hp (by omega)]
    exact ih (by omega)

/-- An iteration passes over the chains one after the other. -/
theorem iterates_elemsFrom (h : Hash α) {l : List α} {b p : Nat} (hb : b < h.bucketCnt)
    (hl : elemsFrom h b p = l) : Iterates h ⟨b, p⟩ l := by
  induction l generalizing b p with
  | nil =>
    rcases scanBuckets_spec h b p hb with ⟨-, hnone⟩ | ⟨e, b', p', hcons, -, -⟩
    · exact .done hnone
    · rw [hl] at hcons
      cases hcons
  | cons e l ih =>
    rcases scanBuckets_spec h b p hb with ⟨hnil, -⟩ | ⟨e', b', p', hcons, hb', hnext⟩
    · rw [hl] at hnil
      cases hnil
    · rw [hl] at hcons
      obtain ⟨rfl, rfl⟩ := List.cons.inj hcons
      exact .next hnext (ih hb' rfl)

/-! ## The invariant -/

/-- The elements, chain by chain. -/
def Hash.elems (h : Hash α) : List α := (List.range h.bucketCnt).flatMap h.buckets

/-- The shape of the chains. -/
structure Chained (F : HashFuncs α) (h : Hash α) : Prop where
  bucketCnt : ∃ k, 2 ≤ k ∧ h.bucketCnt = 2 ^ k
  placed : ∀ i < h.bucketCnt, ∀ e ∈ h.buckets i, findBucket F h e = i
  distinct : ∀ i < h.bucketCnt, (h.buckets i).Pairwise fun a b => ¬F.setoid a b

structure Hash.Ok (F : HashFuncs α) (h : Hash α) : Prop extends Chained F h where
  elemCnt : h.elemCnt = h.elems.length

variable {F : HashFuncs α} {h : Hash α} {e : α}

theorem mem_elems : e ∈ h.elems ↔ ∃ i < h.bucketCnt, e ∈ h.buckets i := by
  simp [Hash.elems]

theorem Chained.pos (hc : Chained F h) : 0 < h.bucketCnt := by
  obtain ⟨k, -, hk⟩ := hc.bucketCnt
  rw [hk]
  exact Nat.two_pow_pos k

theorem Chained.findBucket_lt (hc : Chained F h) (e : α) : findBucket F h e < h.bucketCnt := by
  have hle : findBucket F h e ≤ h.bucketCnt - 1 := Nat.and_le_right
  have hpos := hc.pos
  omega

theorem findBucket_congr {a b : α} (hr : F.setoid a b) : findBucket F h a = findBucket F h b := by
  rw [findBucket, findBucket, F.agree a b hr.1 hr.2]

section

variable (hc : Chained F h)

include hc

/-- An element is in its own bucket or nowhere. -/
theorem Chained.mem_elems :
    e ∈ h.elems ↔ e ∈ h.buckets (findBucket F h e) := by
  rw [Lib.mem_elems]
  constructor
  · rintro ⟨i, hi, he⟩
    rwa [hc.placed i hi e he]
  · intro he
    exact ⟨_, hc.findBucket_lt e, he⟩

/-- No two elements are equivalent. -/
theorem Chained.pairwise : h.elems.Pairwise fun a b => ¬F.setoid a b := by
  refine List.pairwise_flatMap.mpr ⟨fun i hi => hc.distinct i (List.mem_range.mp hi), ?_⟩
  refine List.pairwise_lt_range.imp_of_mem fun {i j} hi hj hij a ha b hb hr => ?_
  -- equivalent elements have one hash, so they would be in one bucket
  have ha' := hc.placed i (List.mem_range.mp hi) a ha
  have hb' := hc.placed j (List.mem_range.mp hj) b hb
  have heq := findBucket_congr (h := h) hr
  omega

theorem Chained.nodup : h.elems.Nodup := by
  refine List.Pairwise.imp ?_ hc.pairwise
  intro a b hr heq
  exact hr (heq ▸ F.setoid.refl a)

theorem Chained.bucket_nodup {i : Nat} (hi : i < h.bucketCnt) : (h.buckets i).Nodup := by
  refine List.Pairwise.imp ?_ (hc.distinct i hi)
  intro a b hr heq
  exact hr (heq ▸ F.setoid.refl a)

/-- Two lists of the same elements have one length. -/
theorem Chained.length_elems {l : List α} (hl : l.Nodup)
    (hmem : ∀ a, a ∈ h.elems ↔ a ∈ l) : h.elems.length = l.length :=
  ((List.perm_ext_iff_of_nodup hc.nodup hl).mpr hmem).length_eq

/-! ## The steps of the operations -/

theorem findElem_some {a : α} (hfind : findElem F (h.buckets (findBucket F h e)) e = some a) :
    a ∈ h.elems ∧ F.setoid a e := by
  have hmem := List.mem_of_find?_eq_some hfind
  have hrel := List.find?_some hfind
  rw [Bool.and_eq_true, Bool.not_eq_true', Bool.not_eq_true'] at hrel
  exact ⟨Lib.mem_elems.mpr ⟨_, hc.findBucket_lt e, hmem⟩, hrel⟩

theorem findElem_none (hfind : findElem F (h.buckets (findBucket F h e)) e = none) :
    ∀ a ∈ h.elems, ¬F.setoid a e := by
  intro a ha hr
  -- an equivalent element would be in the bucket that has been searched
  rw [hc.mem_elems, findBucket_congr hr] at ha
  have hno := List.find?_eq_none.mp hfind a ha
  rw [Bool.and_eq_true, Bool.not_eq_true', Bool.not_eq_true'] at hno
  exact hno hr

theorem mem_insertElem {a : α} :
    a ∈ (insertElem h (findBucket F h e) e).elems ↔ a ∈ e :: h.elems := by
  rw [Lib.mem_elems, List.mem_cons, Lib.mem_elems]
  show (∃ i < h.bucketCnt, a ∈ update h.buckets _ _ i) ↔ _
  constructor
  · rintro ⟨i, hi, ha⟩
    by_cases heq : i = findBucket F h e
    · subst heq
      rw [update_self] at ha
      exact (List.mem_cons.mp ha).imp_right fun ha => ⟨_, hi, ha⟩
    · rw [update_of_ne heq] at ha
      exact Or.inr ⟨i, hi, ha⟩
  · rintro (rfl | ⟨i, hi, ha⟩)
    · exact ⟨_, hc.findBucket_lt a, by rw [update_self]; exact List.mem_cons_self⟩
    · refine ⟨i, hi, ?_⟩
      by_cases heq : i = findBucket F h e
      · subst heq
        rw [update_self]
        exact List.mem_cons_of_mem _ ha
      · rwa [update_of_ne heq]

end

theorem insertElem_ok (hok : h.Ok F) (hnew : ∀ a ∈ h.elems, ¬F.setoid a e) :
    (insertElem h (findBucket F h e) e).Ok F := by
  have hc : Chained F (insertElem h (findBucket F h e) e) := by
    refine ⟨hok.bucketCnt, fun i hi a ha => ?_, fun i hi => ?_⟩
    · change a ∈ update h.buckets _ _ i at ha
      show findBucket F h a = i
      by_cases heq : i = findBucket F h e
      · subst heq
        rw [update_self] at ha
        rcases List.mem_cons.mp ha with rfl | ha
        · rfl
        · exact hok.placed _ hi a ha
      · rw [update_of_ne heq] at ha
        exact hok.placed i hi a ha
    · show (update h.buckets _ _ i).Pairwise _
      by_cases heq : i = findBucket F h e
      · subst heq
        rw [update_self]
        refine List.pairwise_cons.mpr ⟨fun a ha hr => ?_, hok.distinct _ hi⟩
        exact hnew a (Lib.mem_elems.mpr ⟨_, hi, ha⟩) (F.setoid.symm hr)
      · rw [update_of_ne heq]
        exact hok.distinct i hi
  have hnodup : (e :: h.elems).Nodup :=
    List.nodup_cons.mpr ⟨fun he => hnew e he (F.setoid.refl e), hok.nodup⟩
  refine ⟨hc, ?_⟩
  rw [hc.length_elems hnodup fun _ => mem_insertElem hok.toChained, List.length_cons, ← hok.elemCnt]
  rfl

section

variable [DecidableEq α]

theorem mem_removeElem (hc : Chained F h) {a : α} :
    a ∈ (removeElem h e).elems ↔ a ∈ h.elems.erase e := by
  rw [hc.nodup.mem_erase_iff, Lib.mem_elems, Lib.mem_elems]
  show (∃ i < h.bucketCnt, a ∈ (h.buckets i).erase e) ↔ _
  constructor
  · rintro ⟨i, hi, ha⟩
    obtain ⟨hne, ha⟩ := (hc.bucket_nodup hi).mem_erase_iff.mp ha
    exact ⟨hne, i, hi, ha⟩
  · rintro ⟨hne, i, hi, ha⟩
    exact ⟨i, hi, (hc.bucket_nodup hi).mem_erase_iff.mpr ⟨hne, ha⟩⟩

theorem removeElem_ok (hok : h.Ok F) (he : e ∈ h.elems) : (removeElem h e).Ok F := by
  have hc : Chained F (removeElem h e) := by
    refine ⟨hok.bucketCnt, fun i hi a ha => ?_, fun i hi => ?_⟩
    · exact hok.placed i hi a (List.mem_of_mem_erase ha)
    · exact List.Pairwise.sublist List.erase_sublist (hok.distinct i hi)
  refine ⟨hc, ?_⟩
  rw [hc.length_elems (hok.nodup.erase e) fun _ => mem_removeElem hok.toChained,
    List.length_erase_of_mem he, ← hok.elemCnt]
  rfl

end

/-! ## Changing the number of buckets -/

/-- Turning the lowest bit off keeps the highest one. -/
theorem four_le_turnOffLeast1bit {x : Nat} (hx : 4 ≤ x) (hp : isPowerOf2 x = false) :
    4 ≤ turnOffLeast1bit x := by
  have hne : x ≠ 0 := by omega
  have hlow : turnOffLeast1bit x ≠ 0 := by
    simpa [isPowerOf2, hne] using hp
  have hself : 2 ^ x.log2 ≤ x := Nat.log2_self_le hne
  have hlt : x < 2 ^ (x.log2 + 1) := Nat.lt_log2_self
  have hlog : 2 ≤ x.log2 := (Nat.le_log2 hne).mpr hx
  -- `x` is not the power itself, so `x - 1` has the same highest bit
  have hstrict : 2 ^ x.log2 ≤ x - 1 := by
    have hneq : x ≠ 2 ^ x.log2 := by
      intro heq
      apply hlow
      rw [turnOffLeast1bit, heq]
      simp [Nat.and_two_pow_sub_one_eq_mod]
    omega
  have hbit : (turnOffLeast1bit x).testBit x.log2 = true := by
    rw [turnOffLeast1bit, Nat.testBit_and, Nat.testBit_log2 hne, Bool.true_and]
    have hlog' : (x - 1).log2 = x.log2 := by
      apply Nat.log2_eq_iff (by omega) |>.mpr
      omega
    rw [← hlog']
    exact Nat.testBit_log2 (by omega)
  have hge : 2 ^ x.log2 ≤ turnOffLeast1bit x := Nat.ge_two_pow_of_testBit hbit
  have hpow : 2 ^ 2 ≤ 2 ^ x.log2 := Nat.pow_le_pow_right (by decide) hlog
  omega

theorem exists_of_isPowerOf2 {x : Nat} (hp : isPowerOf2 x = true) : ∃ k, x = 2 ^ k := by
  rw [isPowerOf2, Bool.and_eq_true, bne_iff_ne, beq_iff_eq] at hp
  refine ⟨x.log2, ?_⟩
  by_contra hne
  have hself : 2 ^ x.log2 ≤ x := Nat.log2_self_le hp.1
  have hlt : x < 2 ^ (x.log2 + 1) := Nat.lt_log2_self
  have hbit : (turnOffLeast1bit x).testBit x.log2 = true := by
    have hlog' : (x - 1).log2 = x.log2 := by
      apply Nat.log2_eq_iff (by omega) |>.mpr
      omega
    rw [turnOffLeast1bit, Nat.testBit_and, Nat.testBit_log2 hp.1, Bool.true_and, ← hlog']
    exact Nat.testBit_log2 (by omega)
  rw [hp.2, Nat.zero_testBit] at hbit
  cases hbit

theorem toPowerOf2_spec (x : Nat) (hx : 4 ≤ x) : ∃ k, 2 ≤ k ∧ toPowerOf2 x = 2 ^ k := by
  fun_induction toPowerOf2 x with
  | case1 x hp =>
    obtain ⟨k, rfl⟩ := exists_of_isPowerOf2 (hp.resolve_left (by omega))
    refine ⟨k, ?_, rfl⟩
    have hpow : 2 ^ 2 ≤ 2 ^ k := hx
    exact (Nat.pow_le_pow_iff_right (by decide)).mp hpow
  | case2 x hp ih =>
    rw [not_or, Bool.not_eq_true] at hp
    exact ih (four_le_turnOffLeast1bit hx hp.2)

theorem newBucketCnt_spec (n : Nat) : ∃ k, 2 ≤ k ∧ newBucketCnt n = 2 ^ k := by
  apply toPowerOf2_spec
  split <;> omega

/-- Elements pushed one after the other stand in the reverse order. -/
theorem foldl_pushFront (F : HashFuncs α) (l : List α) (h : Hash α) :
    l.foldl (fun h e => h.pushFront (findBucket F h e) e) h =
      { h with buckets := fun i => (l.filter (findBucket F h · = i)).reverse ++ h.buckets i } := by
  induction l generalizing h with
  | nil => simp
  | cons e l ih =>
    rw [List.foldl_cons, ih]
    show Hash.mk _ _ (fun i => (l.filter (findBucket F h · = i)).reverse ++
      update h.buckets (findBucket F h e) _ i) = _
    congr 1
    funext i
    by_cases heq : findBucket F h e = i
    · subst heq
      simp
    · simp [heq, update_of_ne (Ne.symm heq)]

/-- The table after the elements have been moved. -/
def moved (F : HashFuncs α) (h : Hash α) (n : Nat) : Hash α :=
  { h with
    bucketCnt := n
    buckets := fun i => (h.elems.filter (findBucket F { h with bucketCnt := n } · = i)).reverse }

theorem rehash_cases (F : HashFuncs α) (h : Hash α) (ok : Bool) :
    rehash F h ok = h ∨ rehash F h ok = moved F h (newBucketCnt h.elemCnt) := by
  rw [rehash]
  split
  · exact Or.inl rfl
  · split
    · exact Or.inl rfl
    · refine Or.inr ?_
      rw [← List.foldl_flatMap, foldl_pushFront]
      simp only [List.append_nil]
      rfl

theorem chained_moved (hc : Chained F h) {n : Nat} (hn : ∃ k, 2 ≤ k ∧ n = 2 ^ k) :
    Chained F (moved F h n) := by
  refine ⟨hn, fun i hi a ha => ?_, fun i hi => ?_⟩
  · have ha := (List.mem_filter.mp (List.mem_reverse.mp ha)).2
    exact of_decide_eq_true ha
  · refine List.pairwise_reverse.mpr (List.Pairwise.filter _ ?_)
    exact hc.pairwise.imp fun hr hr' => hr (F.setoid.symm hr')

theorem mem_moved {n : Nat} (hn : ∃ k, 2 ≤ k ∧ n = 2 ^ k) (hc : Chained F h) {a : α} :
    a ∈ (moved F h n).elems ↔ a ∈ h.elems := by
  have hm := chained_moved hc hn
  rw [hm.mem_elems]
  show a ∈ (h.elems.filter _).reverse ↔ _
  rw [List.mem_reverse, List.mem_filter]
  exact and_iff_left (decide_eq_true rfl)

theorem mem_rehash (hok : h.Ok F) (ok : Bool) {a : α} :
    a ∈ (rehash F h ok).elems ↔ a ∈ h.elems := by
  rcases rehash_cases F h ok with heq | heq <;> rw [heq]
  exact mem_moved (newBucketCnt_spec _) hok.toChained

theorem rehash_ok (hok : h.Ok F) (ok : Bool) : (rehash F h ok).Ok F := by
  rcases rehash_cases F h ok with heq | heq
  · rwa [heq]
  · rw [heq]
    have hc := chained_moved hok.toChained (newBucketCnt_spec h.elemCnt)
    refine ⟨hc, ?_⟩
    rw [hc.length_elems hok.nodup fun _ => mem_moved (newBucketCnt_spec _) hok.toChained,
      ← hok.elemCnt]
    rfl

/-! ## The refinement -/

/-- The table holds the elements of the set. -/
structure Refines (F : HashFuncs α) (h : Hash α) (s : KeyedSet F.setoid) : Prop where
  ok : h.Ok F
  mem : ∀ a, a ∈ h.elems ↔ a ∈ s.elems

variable {s : KeyedSet F.setoid}

theorem Refines.init : Refines F hashInit (.empty F.setoid) := by
  have hnil : (hashInit : Hash α).elems = [] := by simp [Hash.elems, hashInit]
  refine ⟨⟨⟨⟨2, le_rfl, rfl⟩, nofun, fun _ _ => .nil⟩, ?_⟩, fun a => ?_⟩
  · rw [hnil]
    rfl
  · rw [hnil]
    simp [KeyedSet.empty]

theorem Refines.rehash (hr : Refines F h s) (ok : Bool) : Refines F (Lib.rehash F h ok) s :=
  ⟨rehash_ok hr.ok ok, fun a => (mem_rehash hr.ok ok).trans (hr.mem a)⟩

theorem Refines.find_some {a : α} (hr : Refines F h s)
    (hfind : findElem F (h.buckets (findBucket F h e)) e = some a) :
    a ∈ s.elems ∧ F.setoid a e ∧ s.find e = some a := by
  obtain ⟨ha, hrel⟩ := findElem_some hr.ok.toChained hfind
  have hmem := (hr.mem a).mp ha
  exact ⟨hmem, hrel, KeyedSet.find_eq_some hmem hrel⟩

theorem Refines.find_none (hr : Refines F h s)
    (hfind : findElem F (h.buckets (findBucket F h e)) e = none) :
    (∀ a ∈ s.elems, ¬F.setoid a e) ∧ s.find e = none := by
  have hno : ∀ a ∈ s.elems, ¬F.setoid a e := fun a ha =>
    findElem_none hr.ok.toChained hfind a ((hr.mem a).mpr ha)
  exact ⟨hno, KeyedSet.find_eq_none hno⟩

theorem Refines.insertElem (hr : Refines F h s) {s' : KeyedSet F.setoid}
    (hno : ∀ a ∈ s.elems, ¬F.setoid a e) (hs' : ∀ a, a ∈ s'.elems ↔ a = e ∨ a ∈ s.elems) :
    Refines F (Lib.insertElem h (findBucket F h e) e) s' := by
  refine ⟨insertElem_ok hr.ok fun a ha => hno a ((hr.mem a).mp ha), fun a => ?_⟩
  rw [mem_insertElem hr.ok.toChained, hs' a, List.mem_cons, hr.mem a]

variable [DecidableEq α]

theorem Refines.removeElem {a : α} (hr : Refines F h s) (ha : a ∈ s.elems) (hrel : F.setoid a e) :
    Refines F (Lib.removeElem h a) (s.delete e) := by
  refine ⟨removeElem_ok hr.ok ((hr.mem a).mpr ha), fun b => ?_⟩
  rw [mem_removeElem hr.ok.toChained, hr.ok.nodup.mem_erase_iff, hr.mem b, KeyedSet.mem_delete]
  -- the set has no other element with the key of `e`
  constructor
  · rintro ⟨hne, hb⟩
    refine ⟨hb, fun hbe => hne ?_⟩
    exact s.eq_of_rel b hb a ha (F.setoid.trans hbe (F.setoid.symm hrel))
  · rintro ⟨hb, hbe⟩
    exact ⟨fun heq => hbe (heq ▸ hrel), hb⟩

theorem Refines.step (hr : Refines F h s) (ok : Bool) (op : HashOp α) :
    Refines F (hashStep F h ok op).1 (keyedStep s op).1 ∧
      (hashStep F h ok op).2 = (keyedStep s op).2 := by
  cases op with
  | insert new =>
    simp only [hashStep, hashInsert, keyedStep]
    cases hfind : findElem F (h.buckets (findBucket F h new)) new with
    | none =>
      obtain ⟨hno, hnone⟩ := hr.find_none hfind
      exact ⟨(hr.insertElem hno fun a => KeyedSet.mem_insert_of_none hno).rehash ok, hnone.symm⟩
    | some old =>
      obtain ⟨hmem, hrel, hsome⟩ := hr.find_some hfind
      rw [KeyedSet.insert_of_mem hmem hrel]
      exact ⟨hr.rehash ok, hsome.symm⟩
  | replace new =>
    simp only [hashStep, hashReplace, keyedStep]
    cases hfind : findElem F (h.buckets (findBucket F h new)) new with
    | none =>
      obtain ⟨hno, hnone⟩ := hr.find_none hfind
      refine ⟨(hr.insertElem hno fun a => ?_).rehash ok, hnone.symm⟩
      rw [KeyedSet.mem_replace]
      exact or_congr_right (and_iff_left_of_imp (hno a))
    | some old =>
      obtain ⟨hmem, hrel, hsome⟩ := hr.find_some hfind
      have hdel := hr.removeElem hmem hrel
      refine ⟨Refines.rehash ?_ ok, hsome.symm⟩
      refine hdel.insertElem (fun a ha => (KeyedSet.mem_delete.mp ha).2) fun a => ?_
      rw [KeyedSet.mem_replace, KeyedSet.mem_delete]
  | delete e =>
    simp only [hashStep, hashDelete, keyedStep]
    cases hfind : findElem F (h.buckets (findBucket F h e)) e with
    | none =>
      obtain ⟨hno, hnone⟩ := hr.find_none hfind
      refine ⟨⟨hr.ok, fun a => ?_⟩, hnone.symm⟩
      rw [hr.mem a, KeyedSet.mem_delete]
      exact (and_iff_left_of_imp (hno a)).symm
    | some found =>
      obtain ⟨hmem, hrel, hsome⟩ := hr.find_some hfind
      exact ⟨(hr.removeElem hmem hrel).rehash ok, hsome.symm⟩
  | find e =>
    refine ⟨hr, ?_⟩
    simp only [hashStep, hashFind, keyedStep]
    cases hfind : findElem F (h.buckets (findBucket F h e)) e with
    | none => exact (hr.find_none hfind).2.symm
    | some a => exact (hr.find_some hfind).2.2.symm

theorem Refines.run (hr : Refines F h s) (ops : List (HashOp α × Bool)) :
    Refines F (hashRun F h ops).1 (keyedRun s (ops.map Prod.fst)).1 ∧
      (hashRun F h ops).2 = (keyedRun s (ops.map Prod.fst)).2 := by
  induction ops generalizing h s with
  | nil => exact ⟨hr, rfl⟩
  | cons op ops ih =>
    obtain ⟨hstep, hres⟩ := hr.step op.2 op.1
    obtain ⟨hrun, hrest⟩ := ih hstep
    exact ⟨hrun, congrArg₂ List.cons hres hrest⟩

omit [DecidableEq α] in
/-- What a table shows of the set it refines. -/
structure HashSound (F : HashFuncs α) (h : Hash α) (s : KeyedSet F.setoid) : Prop where
  mem : ∀ a, a ∈ s.elems ↔ ∃ i < h.bucketCnt, a ∈ h.buckets i
  elemCnt : h.elemCnt = s.elems.card
  bucketCnt : 4 ≤ h.bucketCnt ∧ ∃ k, h.bucketCnt = 2 ^ k
  placed : ∀ i < h.bucketCnt, ∀ a ∈ h.buckets i, (F.hash a).toNat &&& (h.bucketCnt - 1) = i
  distinct : ∀ i < h.bucketCnt, ∀ j < h.bucketCnt, ∀ a ∈ h.buckets i, ∀ b ∈ h.buckets j,
    F.setoid a b → i = j ∧ a = b
  /-- `hash_first` and `hash_next` yield each element once. -/
  iterates : ∃ l, Iterates h hashFirst l ∧ l.Nodup ∧ ∀ a, a ∈ l ↔ a ∈ s.elems

omit [DecidableEq α] in
theorem Refines.sound (hr : Refines F h s) : HashSound F h s := by
  have hc := hr.ok.toChained
  refine ⟨fun a => ?_, ?_, ?_, hc.placed, fun i hi j hj a ha b hb hrel => ?_, ?_⟩
  · rw [← hr.mem a, Lib.mem_elems]
  · rw [hr.ok.elemCnt, KeyedSet.card_of_list hc.nodup hr.mem]
  · obtain ⟨k, hk, hcnt⟩ := hc.bucketCnt
    refine ⟨?_, k, hcnt⟩
    rw [hcnt]
    exact Nat.pow_le_pow_right (n := 2) (by decide) hk
  · have ha' := (hr.mem a).mp (Lib.mem_elems.mpr ⟨i, hi, ha⟩)
    have hb' := (hr.mem b).mp (Lib.mem_elems.mpr ⟨j, hj, hb⟩)
    have hi' := hc.placed i hi a ha
    have hj' := hc.placed j hj b hb
    refine ⟨?_, s.eq_of_rel a ha' b hb' hrel⟩
    rw [← hi', ← hj', findBucket_congr hrel]
  · refine ⟨h.elems, ?_, hc.nodup, hr.mem⟩
    refine iterates_elemsFrom h hc.pos ?_
    rw [elemsFrom, Hash.elems, List.drop_zero, List.range_eq_range']
    have hsucc : h.bucketCnt = h.bucketCnt - (0 + 1) + 1 := by
      have := hc.pos
      omega
    rw [hsucc, List.range'_succ]
    simp

/-- The hash table refines a finite set keyed by equivalence under `less`. -/
theorem hash_refines (F : HashFuncs α) (ops : List (HashOp α × Bool)) :
    (hashRun F hashInit ops).2 = (keyedRun (.empty F.setoid) (ops.map Prod.fst)).2 ∧
      HashSound F (hashRun F hashInit ops).1 (keyedRun (.empty F.setoid) (ops.map Prod.fst)).1 := by
  obtain ⟨hr, hres⟩ := Refines.init.run ops
  exact ⟨hres, hr.sound⟩

end Pintos.Lib
