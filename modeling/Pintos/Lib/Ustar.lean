/-
  Pintos.Lib.Ustar

  Headers of ustar archives (lib/ustar.c): `ustar_make_header` composes a header
  of 512 bytes, `ustar_parse_header` takes one apart.

  A header is its fields one after the other.  Strings are lists of the characters
  before the terminating null byte; a field that holds one is filled up with null
  bytes.

  Result:
  - a header that is made is parsed back to the stripped name, the type and the
    size
-/

import Mathlib

namespace Pintos.Lib

variable {n width : Nat}

abbrev Bytes := List UInt8

/-! ## Fields -/

/-- Cuts bytes into fields of the given sizes. -/
def splitFields : List Nat → Bytes → List Bytes
  | [], _ => []
  | n :: sizes, bytes => bytes.take n :: splitFields sizes (bytes.drop n)

theorem splitFields_flatten {sizes : List Nat} {fields : List Bytes}
    (h : fields.map List.length = sizes) : splitFields sizes fields.flatten = fields := by
  induction fields generalizing sizes with
  | nil => subst h; rfl
  | cons field fields ih =>
    subst h
    rw [List.map_cons, List.flatten_cons, splitFields, List.take_left, List.drop_left, ih rfl]

/-- `struct ustar_header`; the field `prefix` is `namePrefix` here. -/
structure UstarHeader where
  name : Bytes
  mode : Bytes
  uid : Bytes
  gid : Bytes
  size : Bytes
  mtime : Bytes
  chksum : Bytes
  typeflag : Bytes
  linkname : Bytes
  magic : Bytes
  version : Bytes
  uname : Bytes
  gname : Bytes
  devmajor : Bytes
  devminor : Bytes
  namePrefix : Bytes
  padding : Bytes

/-- The sizes of the fields. -/
def ustarSizes : List Nat := [100, 8, 8, 8, 12, 12, 8, 1, 100, 6, 2, 32, 32, 8, 8, 155, 12]

namespace UstarHeader

def fields (h : UstarHeader) : List Bytes :=
  [h.name, h.mode, h.uid, h.gid, h.size, h.mtime, h.chksum, h.typeflag, h.linkname, h.magic,
    h.version, h.uname, h.gname, h.devmajor, h.devminor, h.namePrefix, h.padding]

def bytes (h : UstarHeader) : Bytes := h.fields.flatten

/-- Bytes seen as a header. -/
def ofBytes (bytes : Bytes) : UstarHeader :=
  let f := splitFields ustarSizes bytes
  ⟨f.getD 0 [], f.getD 1 [], f.getD 2 [], f.getD 3 [], f.getD 4 [], f.getD 5 [], f.getD 6 [],
    f.getD 7 [], f.getD 8 [], f.getD 9 [], f.getD 10 [], f.getD 11 [], f.getD 12 [], f.getD 13 [],
    f.getD 14 [], f.getD 15 [], f.getD 16 []⟩

/-- Every field has its size. -/
def Sized (h : UstarHeader) : Prop := h.fields.map List.length = ustarSizes

theorem ofBytes_bytes {h : UstarHeader} (hs : h.Sized) : ofBytes h.bytes = h := by
  rw [ofBytes, bytes, splitFields_flatten hs]
  rfl

end UstarHeader

/-- A string in an array of `n` null bytes. -/
def fill (n : Nat) (s : Bytes) : Bytes := s ++ List.replicate (n - s.length) 0

/-- `strlcpy` into a field of `n` null bytes. -/
def strlcpyField (n : Nat) (s : Bytes) : Bytes := fill n (s.take (n - 1))

/-- The string at the start of a field. -/
def cString (field : Bytes) : Bytes := field.takeWhile (· != 0)

theorem length_fill {s : Bytes} (h : s.length ≤ n) : (fill n s).length = n := by
  rw [fill, List.length_append, List.length_replicate]
  omega

theorem length_strlcpyField (hn : 0 < n) (s : Bytes) : (strlcpyField n s).length = n :=
  length_fill (by rw [List.length_take]; omega)

/-- A string is read back from a field that has room for it. -/
theorem cString_strlcpyField {s : Bytes} (hlen : s.length < n) (h0 : 0 ∉ s) :
    cString (strlcpyField n s) = s := by
  have htake : s.take (n - 1) = s := List.take_of_length_le (by omega)
  obtain ⟨m, hm⟩ : ∃ m, n - s.length = m + 1 := ⟨n - s.length - 1, by omega⟩
  have hall : ∀ c ∈ s, (c != 0) = true := by
    intro c hc
    rw [bne_iff_ne]
    rintro rfl
    exact h0 hc
  rw [cString, strlcpyField, htake, fill, hm, List.replicate_succ,
    List.takeWhile_append_of_pos hall]
  simp

/-! ## Octal numbers -/

/-- `printf` with `"%0<width>o"`. -/
def octal (width n : Nat) : Bytes :=
  let digits := (Nat.digits 8 n).reverse.map fun d => UInt8.ofNat (48 + d)
  List.replicate (width - digits.length) 48 ++ digits

/-- `ULONG_MAX` -/
def ulongMax : Nat := 2 ^ 32 - 1

/-- The loop of `parse_octal_field`; `some` is a return of true. -/
def parseOctalLoop : Bytes → Bool → Nat → Option Nat
  | [], _, _ => none
  | c :: s, started, value =>
    if 48 ≤ c ∧ c ≤ 55 then
      if ulongMax / 8 < value then none
      else parseOctalLoop s true (c.toNat - 48 + value * 8)
    else if c = 32 ∨ c = 0 then
      if started then some value else none
    else none

/-- `parse_octal_field` -/
def parseOctalField (s : Bytes) : Option Nat := parseOctalLoop s false 0

/-- The octal digits of `n`, with zeros in front. -/
def octalDigits (width n : Nat) : List Nat :=
  List.replicate (width - (Nat.digits 8 n).length) 0 ++ (Nat.digits 8 n).reverse

theorem octal_eq (width n : Nat) :
    octal width n = (octalDigits width n).map fun d => UInt8.ofNat (48 + d) := by
  simp [octal, octalDigits]

theorem octalDigits_lt {d : Nat} (hd : d ∈ octalDigits width n) : d < 8 := by
  rcases List.mem_append.mp hd with hd | hd
  · rw [(List.mem_replicate.mp hd).2]
    decide
  · exact Nat.digits_lt_base (by decide) (List.mem_reverse.mp hd)

theorem length_octalDigits (h : n < 8 ^ width) : (octalDigits width n).length = width := by
  have hle : (Nat.digits 8 n).length ≤ width := (Nat.digits_length_le_iff (by decide) n).mpr h
  rw [octalDigits, List.length_append, List.length_replicate, List.length_reverse]
  omega

/-- The value that the loop of `parse_octal_field` computes from digits. -/
def octalValue (value : Nat) (digits : List Nat) : Nat :=
  digits.foldl (fun v d => d + v * 8) value

theorem octalValue_octalDigits (width n : Nat) : octalValue 0 (octalDigits width n) = n := by
  have hzeros : ∀ m, octalValue 0 (List.replicate m 0) = 0 := by
    intro m
    induction m with
    | zero => rfl
    | succ m ih => rw [List.replicate_succ]; exact ih
  rw [octalValue, octalDigits, List.foldl_append]
  have h0 := hzeros (width - (Nat.digits 8 n).length)
  rw [octalValue] at h0
  rw [h0, List.foldl_reverse]
  have hdigits := Nat.ofDigits_digits 8 n
  rw [Nat.ofDigits_eq_foldr] at hdigits
  simpa [Nat.mul_comm] using hdigits

theorem le_octalValue (value : Nat) (digits : List Nat) : value ≤ octalValue value digits := by
  induction digits generalizing value with
  | nil => exact le_rfl
  | cons d digits ih =>
    have := ih (d + value * 8)
    rw [octalValue, List.foldl_cons, ← octalValue]
    omega

/-- Digits up to a null byte are parsed to their value. -/
theorem parseOctalLoop_digits {digits : List Nat} {value : Nat} {started : Bool} {rest : Bytes}
    (hd : ∀ d ∈ digits, d < 8) (hstart : started = true ∨ digits ≠ [])
    (hmax : octalValue value digits ≤ ulongMax) :
    parseOctalLoop ((digits.map fun d => UInt8.ofNat (48 + d)) ++ 0 :: rest) started value =
      some (octalValue value digits) := by
  induction digits generalizing value started with
  | nil =>
    rw [hstart.resolve_right (fun h => h rfl)]
    rfl
  | cons d digits ih =>
    have hlt := hd d (List.mem_cons_self ..)
    have hnat : (UInt8.ofNat (48 + d)).toNat = 48 + d := by
      rw [UInt8.toNat_ofNat']
      omega
    have hdigit : 48 ≤ UInt8.ofNat (48 + d) ∧ UInt8.ofNat (48 + d) ≤ 55 := by
      rw [UInt8.le_iff_toNat_le, UInt8.le_iff_toNat_le, hnat]
      exact ⟨Nat.le_add_right 48 d, by show 48 + d ≤ 55; omega⟩
    -- the value does not overflow, since it only grows
    have hstep : octalValue value (d :: digits) = octalValue (d + value * 8) digits := rfl
    have hgrow := le_octalValue (d + value * 8) digits
    have hsmall : ¬ulongMax / 8 < value := by
      rw [hstep] at hmax
      omega
    rw [List.map_cons, List.cons_append, parseOctalLoop, if_pos hdigit, if_neg hsmall, hnat,
      Nat.add_sub_cancel_left, hstep]
    exact ih (fun d hd' => hd d (List.mem_cons_of_mem _ hd')) (Or.inl rfl) hmax

/-- A number in an octal field that has room for `width` digits. -/
theorem parseOctalField_octal (hw : 0 < width) (hn : n < 8 ^ width) (hmax : n ≤ ulongMax) :
    parseOctalField (strlcpyField (width + 1) (octal width n)) = some n := by
  have hlen : (octal width n).length = width := by
    rw [octal_eq, List.length_map, length_octalDigits hn]
  have hne : octalDigits width n ≠ [] := by
    intro h
    have := length_octalDigits hn
    rw [h, List.length_nil] at this
    omega
  have hvalue := octalValue_octalDigits width n
  rw [strlcpyField, Nat.add_sub_cancel, List.take_of_length_le hlen.le, fill, hlen,
    Nat.add_sub_cancel_left, octal_eq, parseOctalField]
  refine (parseOctalLoop_digits (fun d => octalDigits_lt) (Or.inr hne) ?_).trans ?_
  · rw [hvalue]
    exact hmax
  · rw [hvalue]

/-! ## Names -/

/-- The loop of `strip_antisocial_prefixes`: `/`, `./` and `../` are dropped. -/
def stripLoop : Bytes → Bytes
  | 47 :: s => stripLoop s
  | 46 :: 47 :: s => stripLoop s
  | 46 :: 46 :: 47 :: s => stripLoop s
  | s => s

/-- `strip_antisocial_prefixes` -/
def stripAntisocialPrefixes (fileName : Bytes) : Bytes :=
  let s := stripLoop fileName
  if s = [] ∨ s = [46, 46] then [46] else s

theorem stripLoop_stripLoop (s : Bytes) : stripLoop (stripLoop s) = stripLoop s := by
  fun_induction stripLoop s with
  | case1 s ih => exact ih
  | case2 s ih => exact ih
  | case3 s ih => exact ih
  | case4 s h₁ h₂ h₃ => rw [stripLoop.eq_4 s h₁ h₂ h₃]

theorem stripLoop_suffix (s : Bytes) : stripLoop s <:+ s := by
  fun_induction stripLoop s with
  | case1 s ih => exact ih.trans (List.suffix_cons ..)
  | case2 s ih => exact ih.trans ((List.suffix_cons ..).trans (List.suffix_cons ..))
  | case3 s ih =>
    exact ih.trans ((List.suffix_cons ..).trans ((List.suffix_cons ..).trans (List.suffix_cons ..)))
  | case4 s => exact List.suffix_refl s

/-- A stripped name is not stripped further. -/
theorem stripAntisocialPrefixes_idem (s : Bytes) :
    stripAntisocialPrefixes (stripAntisocialPrefixes s) = stripAntisocialPrefixes s := by
  have hdef : stripAntisocialPrefixes s =
      if stripLoop s = [] ∨ stripLoop s = [46, 46] then [46] else stripLoop s := rfl
  rw [hdef]
  split
  · rfl
  · rename_i h
    rw [stripAntisocialPrefixes, stripLoop_stripLoop, if_neg h]

theorem zero_not_mem_strip {s : Bytes} (h : 0 ∉ s) : 0 ∉ stripAntisocialPrefixes s := by
  rw [stripAntisocialPrefixes]
  split
  · decide
  · exact fun hmem => h ((stripLoop_suffix s).subset hmem)

/-- The test of the loop of `strip_antisocial_prefixes`. -/
def antisocial (s : Bytes) : Prop := [47] <+: s ∨ [46, 47] <+: s ∨ [46, 46, 47] <+: s

/-- `strchr`: the string from the first `c` on, for a character other than the
    terminating null. -/
def strchr (c : UInt8) : Bytes → Option Bytes
  | [] => none
  | x :: s => if x = c then some (x :: s) else strchr c s

/-- A name that passes the test has a slash, and the loop goes on behind it. -/
theorem stripLoop_antisocial {s : Bytes} (h : antisocial s) :
    ∃ rest, strchr 47 s = some (47 :: rest) ∧ stripLoop s = stripLoop rest := by
  rcases h with ⟨rest, rfl⟩ | ⟨rest, rfl⟩ | ⟨rest, rfl⟩
  all_goals exact ⟨rest, by simp [strchr], by simp [stripLoop]⟩

theorem not_antisocial_stripLoop (s : Bytes) : ¬ antisocial (stripLoop s) := by
  fun_induction stripLoop s with
  | case1 s ih => exact ih
  | case2 s ih => exact ih
  | case3 s ih => exact ih
  | case4 s h₁ h₂ h₃ =>
    rintro (⟨rest, rfl⟩ | ⟨rest, rfl⟩ | ⟨rest, rfl⟩)
    · exact h₁ rest rfl
    · exact h₂ rest rfl
    · exact h₃ rest rfl

/-- Stripped names are safe, come from the end of the name and are not stripped
    further; the loop stops, and takes every step behind the next slash. -/
theorem stripped_names_safe (s : Bytes) :
    stripAntisocialPrefixes s ≠ [] ∧ stripAntisocialPrefixes s ≠ [46, 46] ∧
    ¬ antisocial (stripAntisocialPrefixes s) ∧
    (stripAntisocialPrefixes s <:+ s ∨ stripAntisocialPrefixes s = [46]) ∧
    stripAntisocialPrefixes (stripAntisocialPrefixes s) = stripAntisocialPrefixes s ∧
    (antisocial s → ∃ rest, strchr 47 s = some (47 :: rest) ∧
      stripAntisocialPrefixes s = stripAntisocialPrefixes rest) ∧
    (¬ antisocial s → stripAntisocialPrefixes s = if s = [] ∨ s = [46, 46] then [46] else s) := by
  have hsafe : stripAntisocialPrefixes s ≠ [] ∧ stripAntisocialPrefixes s ≠ [46, 46] ∧
      ¬ antisocial (stripAntisocialPrefixes s) ∧
      (stripAntisocialPrefixes s <:+ s ∨ stripAntisocialPrefixes s = [46]) := by
    rw [stripAntisocialPrefixes]
    split
    case isTrue => simp [antisocial]
    case isFalse h =>
      rw [not_or] at h
      exact ⟨h.1, h.2, not_antisocial_stripLoop s, .inl (stripLoop_suffix s)⟩
  refine ⟨hsafe.1, hsafe.2.1, hsafe.2.2.1, hsafe.2.2.2, stripAntisocialPrefixes_idem s, ?_, ?_⟩
  · intro h
    obtain ⟨rest, hrest, heq⟩ := stripLoop_antisocial h
    exact ⟨rest, hrest, by rw [stripAntisocialPrefixes, heq, stripAntisocialPrefixes]⟩
  · intro h
    have hstop : stripLoop s = s := by
      apply stripLoop.eq_4
      · rintro rest rfl
        exact h (.inl ⟨rest, rfl⟩)
      · rintro rest rfl
        exact h (.inr (.inl ⟨rest, rfl⟩))
      · rintro rest rfl
        exact h (.inr (.inr ⟨rest, rfl⟩))
    rw [stripAntisocialPrefixes, hstop]

/-! ## The checksum -/

/-- `calculate_chksum`: the sum of the bytes, the checksum's own as spaces. -/
def calculateChksum (header : Bytes) : Nat :=
  (List.range 512).foldl (fun chksum i =>
    (chksum + if 148 ≤ i ∧ i < 156 then 32 else (header.getD i 0).toNat) % 2 ^ 32) 0

/-- The checksum does not depend on the checksum field. -/
theorem calculateChksum_congr {pre field field' post : Bytes} (hpre : pre.length = 148)
    (hfield : field.length = 8) (hfield' : field'.length = 8) :
    calculateChksum (pre ++ field ++ post) = calculateChksum (pre ++ field' ++ post) := by
  rw [calculateChksum, calculateChksum]
  refine List.foldl_ext _ _ _ fun chksum i _ => ?_
  split
  · rfl
  · rename_i hi
    have hget : (pre ++ field ++ post).getD i 0 = (pre ++ field' ++ post).getD i 0 := by
      by_cases hlt : i < 148
      · simp only [List.getD_eq_getElem?_getD, List.append_assoc,
          List.getElem?_append_left (by omega : i < pre.length)]
      · have hge : 156 ≤ i := by omega
        have hlen : (pre ++ field).length = 156 := by rw [List.length_append]; omega
        have hlen' : (pre ++ field').length = 156 := by rw [List.length_append]; omega
        rw [List.getD_eq_getElem?_getD, List.getD_eq_getElem?_getD,
          List.getElem?_append_right (by omega), List.getElem?_append_right (by omega), hlen, hlen']
    rw [hget]

theorem chksum_loop_le {f : Nat → Nat} (hf : ∀ i, f i ≤ 255) (l : List Nat) (chksum : Nat) :
    l.foldl (fun c i => (c + f i) % 2 ^ 32) chksum ≤ chksum + 255 * l.length := by
  induction l generalizing chksum with
  | nil => exact le_rfl
  | cons i l ih =>
    have hstep := ih ((chksum + f i) % 2 ^ 32)
    have hmod := Nat.mod_le (chksum + f i) (2 ^ 32)
    have hfi := hf i
    rw [List.foldl_cons, List.length_cons]
    omega

/-- Seven octal digits are enough for a checksum. -/
theorem calculateChksum_lt (header : Bytes) : calculateChksum header < 8 ^ 7 := by
  have hle : calculateChksum header ≤ 0 + 255 * (List.range 512).length := by
    refine chksum_loop_le (fun i => ?_) _ 0
    split
    · decide
    · have := (header.getD i 0).toNat_lt
      omega
  rw [List.length_range] at hle
  omega

/-! ## Headers -/

/-- The two values of `enum ustar_type` that a header may have. -/
inductive UstarType where
  | regular
  | directory
  deriving DecidableEq, Repr

/-- The byte of a type in a header. -/
def UstarType.flag : UstarType → UInt8
  | regular => 48
  | directory => 53

/-- The characters `"ustar"`. -/
def ustarMagic : Bytes := [117, 115, 116, 97, 114]

/-- `"root"` -/
def ustarRoot : Bytes := [114, 111, 111, 116]

/-- The header that `ustar_make_header` fills in before the checksum; `name` is
    the stripped name. -/
def headerFields (name : Bytes) (type : UstarType) (size : Nat) : UstarHeader where
  name := strlcpyField 100 name
  mode := strlcpyField 8 (octal 7 (if type = .regular then 0o644 else 0o755))
  uid := strlcpyField 8 (List.replicate 7 48)
  gid := strlcpyField 8 (List.replicate 7 48)
  size := strlcpyField 12 (octal 11 size)
  mtime := strlcpyField 12 (octal 11 1136102400)
  chksum := List.replicate 8 0
  typeflag := [type.flag]
  linkname := List.replicate 100 0
  magic := strlcpyField 6 ustarMagic
  version := [48, 48]
  uname := strlcpyField 32 ustarRoot
  gname := strlcpyField 32 ustarRoot
  devmajor := List.replicate 8 0
  devminor := List.replicate 8 0
  namePrefix := List.replicate 155 0
  padding := List.replicate 12 0

/-- The checksum is computed from the other fields and filled in. -/
def UstarHeader.withChksum (h : UstarHeader) : UstarHeader :=
  { h with chksum := strlcpyField 8 (octal 7 (calculateChksum h.bytes)) }

/-- `ustar_make_header` -/
def ustarMakeHeader (fileName : Bytes) (type : UstarType) (size : Nat) : Option Bytes :=
  let name := stripAntisocialPrefixes fileName
  if 99 < name.length then none
  else some (headerFields name type size).withChksum.bytes

/-- What `ustar_parse_header` finds. -/
inductive Parsed where
  | eof
  | entry (name : Bytes) (type : UstarType) (size : Nat)
  deriving DecidableEq, Repr

/-- `is_all_zeros` -/
def isAllZeros (block : Bytes) : Bool := block.all (· == 0)

/-- `ustar_parse_header`, with its messages. -/
def ustarParseHeader (header : Bytes) : Except String Parsed :=
  if isAllZeros header then .ok .eof
  else
    let h := UstarHeader.ofBytes header
    if h.magic ≠ ustarMagic ++ [0] then .error "not a ustar archive"
    else if h.version ≠ [48, 48] then .error "invalid ustar version"
    else
      match parseOctalField h.chksum with
      | none => .error "corrupt chksum field"
      | some chksum =>
        if chksum ≠ calculateChksum header then .error "checksum mismatch"
        else if h.name.getD 99 0 ≠ 0 ∨ h.namePrefix.getD 0 0 ≠ 0 then .error "file name too long"
        else
          let name := stripAntisocialPrefixes (cString h.name)
          if h.typeflag = [UstarType.regular.flag] then
            match parseOctalField h.size with
            | none => .error "corrupt file size field"
            | some size =>
              if 2 ^ 31 - 1 < size then .error "file too large"
              else .ok (.entry name .regular size)
          else if h.typeflag = [UstarType.directory.flag] then .ok (.entry name .directory 0)
          else .error "unimplemented file type"

theorem sized_headerFields (name : Bytes) (type : UstarType) (size : Nat) :
    (headerFields name type size).withChksum.Sized := by
  simp only [UstarHeader.Sized, UstarHeader.withChksum, UstarHeader.fields, headerFields, List.map,
    length_strlcpyField (by decide : 0 < 100), length_strlcpyField (by decide : 0 < 8),
    length_strlcpyField (by decide : 0 < 12), length_strlcpyField (by decide : 0 < 6),
    length_strlcpyField (by decide : 0 < 32), List.length_replicate, List.length_cons,
    List.length_nil]
  rfl

/-- Filling in the checksum does not change it. -/
theorem calculateChksum_withChksum (name : Bytes) (type : UstarType) (size : Nat) :
    calculateChksum (headerFields name type size).withChksum.bytes =
      calculateChksum (headerFields name type size).bytes := by
  let h := headerFields name type size
  let pre := h.name ++ (h.mode ++ (h.uid ++ (h.gid ++ (h.size ++ h.mtime))))
  let post := h.typeflag ++ (h.linkname ++ (h.magic ++ (h.version ++ (h.uname ++ (h.gname ++
    (h.devmajor ++ (h.devminor ++ (h.namePrefix ++ h.padding))))))))
  have hsplit : ∀ field : Bytes, ({ h with chksum := field } : UstarHeader).bytes =
      pre ++ field ++ post := by
    intro field
    simp [UstarHeader.bytes, UstarHeader.fields, pre, post]
  have hpre : pre.length = 148 := by
    simp only [pre, h, headerFields, List.length_append,
      length_strlcpyField (by decide : 0 < 100), length_strlcpyField (by decide : 0 < 8),
      length_strlcpyField (by decide : 0 < 12)]
  have hold : h.bytes = pre ++ List.replicate 8 0 ++ post := hsplit (List.replicate 8 0)
  rw [UstarHeader.withChksum, hsplit, hold]
  exact calculateChksum_congr hpre (length_strlcpyField (by decide) _) (List.length_replicate ..)

theorem not_isAllZeros_make (name : Bytes) (type : UstarType) (size : Nat) :
    isAllZeros (headerFields name type size).withChksum.bytes = false := by
  have hmagic : strlcpyField 6 ustarMagic ∈ (headerFields name type size).withChksum.fields := by
    simp [UstarHeader.fields, UstarHeader.withChksum, headerFields]
  rw [isAllZeros, List.all_eq_false]
  refine ⟨117, List.mem_flatten.mpr ⟨_, hmagic, by decide⟩, by decide⟩

/-- The last byte of a field is null when the string leaves room for it. -/
theorem getD_strlcpyField {s : Bytes} (hlen : s.length ≤ n) :
    (strlcpyField (n + 1) s).getD n 0 = 0 := by
  rw [strlcpyField, Nat.add_sub_cancel, List.take_of_length_le hlen, fill,
    List.getD_eq_getElem?_getD, List.getElem?_append_right hlen]
  rcases h : (List.replicate (n + 1 - s.length) (0 : UInt8))[n - s.length]? with _ | b
  · rfl
  · exact (List.mem_replicate.mp (List.mem_of_getElem? h)).2

/-- The tests that a header passes. -/
theorem ustarParseHeader_bytes {h : UstarHeader} {type : UstarType} (hs : h.Sized)
    (hzero : isAllZeros h.bytes = false) (hmagic : h.magic = ustarMagic ++ [0])
    (hversion : h.version = [48, 48])
    (hchksum : parseOctalField h.chksum = some (calculateChksum h.bytes))
    (hname : h.name.getD 99 0 = 0) (hpre : h.namePrefix.getD 0 0 = 0)
    (htype : h.typeflag = [type.flag]) {size : Nat} (hsize : parseOctalField h.size = some size)
    (hmax : size < 2 ^ 31) :
    ustarParseHeader h.bytes = .ok (.entry (stripAntisocialPrefixes (cString h.name)) type
      (if type = .directory then 0 else size)) := by
  rw [ustarParseHeader, hzero, UstarHeader.ofBytes_bytes hs, if_neg Bool.false_ne_true]
  simp only
  rw [if_neg (not_not.mpr hmagic), if_neg (not_not.mpr hversion), hchksum]
  simp only
  rw [if_neg (not_not.mpr rfl),
    if_neg (not_or.mpr ⟨not_not.mpr hname, not_not.mpr hpre⟩), htype]
  cases type with
  | regular =>
    rw [if_pos rfl, hsize]
    simp only
    rw [if_neg (by omega), if_neg nofun]
  | directory => rw [if_neg (by decide), if_pos rfl, if_pos rfl]

/-- A made header is parsed back. -/
theorem ustarParseHeader_make {fileName header : Bytes} {type : UstarType} {size : Nat}
    (h0 : 0 ∉ fileName) (hsize : size < 2 ^ 31)
    (hmake : ustarMakeHeader fileName type size = some header) :
    ustarParseHeader header = .ok (.entry (stripAntisocialPrefixes fileName) type
      (if type = .directory then 0 else size)) := by
  rw [ustarMakeHeader] at hmake
  split at hmake
  · cases hmake
  · rename_i hlen
    obtain rfl := Option.some.inj hmake
    have hname : (stripAntisocialPrefixes fileName).length ≤ 99 := by omega
    have hchk := calculateChksum_lt (headerFields (stripAntisocialPrefixes fileName) type size).bytes
    have hmax : (8 : Nat) ^ 7 ≤ ulongMax := by decide
    have hcstr : cString (strlcpyField 100 (stripAntisocialPrefixes fileName)) =
        stripAntisocialPrefixes fileName :=
      cString_strlcpyField (by omega) (zero_not_mem_strip h0)
    have hfield : parseOctalField (strlcpyField 12 (octal 11 size)) = some size := by
      have hdigits : (2 : Nat) ^ 31 ≤ 8 ^ 11 := by decide
      have hulong : (2 : Nat) ^ 31 ≤ ulongMax := by decide
      exact parseOctalField_octal (by decide) (by omega) (by omega)
    refine (ustarParseHeader_bytes (sized_headerFields ..) (not_isAllZeros_make ..) rfl rfl ?_
      (getD_strlcpyField hname) rfl rfl hfield hsize).trans ?_
    · rw [calculateChksum_withChksum]
      exact parseOctalField_octal (by decide) hchk (hchk.le.trans hmax)
    · show Except.ok (Parsed.entry (stripAntisocialPrefixes
        (cString (strlcpyField 100 (stripAntisocialPrefixes fileName)))) type _) = _
      rw [hcstr, stripAntisocialPrefixes_idem]

end Pintos.Lib
