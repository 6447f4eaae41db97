/-
  Pintos.Filesys.Fsutil

  Archives on the scratch device (filesys/fsutil.c): `fsutil_append` writes a file
  with its header behind the files appended before, `fsutil_extract` reads them
  back up to the end marker.

  A file is its name and its contents; what `fsutil_extract` puts into the file
  system is the list of what it reads.  A panic is `none`.

  Result:
  - the files that have been appended are extracted, in order, with their stripped
    names, and a header that is made is parsed back
-/

import Pintos.Lib.Ustar

namespace Pintos.Filesys

open Pintos.Lib Function

variable {start sector : Nat} {l : List Bytes} {contents : Bytes}

/-- `BLOCK_SECTOR_SIZE` -/
def sectorSize : Nat := 512

/-- A block device. -/
structure Device where
  size : Nat
  sectors : Nat → Bytes

/-- `block_read` -/
def blockRead (dev : Device) (sector : Nat) : Option Bytes :=
  if sector < dev.size then some (dev.sectors sector) else none

/-- `block_write` -/
def blockWrite (dev : Device) (sector : Nat) (buffer : Bytes) : Option Device :=
  if sector < dev.size then some { dev with sectors := update dev.sectors sector buffer }
  else none

def zeroSector : Bytes := List.replicate sectorSize 0

/-- A chunk in a sector, with zeros behind it. -/
def padSector (chunk : Bytes) : Bytes := chunk ++ List.replicate (sectorSize - chunk.length) 0

/-- The copy loop of `fsutil_append`, from what is left of the file. -/
def appendLoop (dev : Device) (sector : Nat) (contents : Bytes) : Option (Device × Nat) :=
  if _h : contents = [] then some (dev, sector)
  else if dev.size ≤ sector then none
  else (blockWrite dev sector (padSector (contents.take sectorSize))).bind fun dev =>
    appendLoop dev (sector + 1) (contents.drop sectorSize)
termination_by contents.length
decreasing_by
  have := List.length_pos_iff.mpr _h
  rw [List.length_drop, sectorSize]
  omega

/-- `fsutil_append` of a file, from the sector where the last one has ended. -/
def fsutilAppend (dev : Device) (sector : Nat) (fileName contents : Bytes) :
    Option (Device × Nat) :=
  (ustarMakeHeader fileName .regular contents.length).bind fun header =>
    (blockWrite dev sector header).bind fun dev =>
      (appendLoop dev (sector + 1) contents).bind fun (dev, sector) =>
        (blockWrite dev sector zeroSector).bind fun dev =>
          (blockWrite dev (sector + 1) zeroSector).map fun dev => (dev, sector)

/-- `fsutil_append` of each file in order. -/
def appendAll (dev : Device) (sector : Nat) : List (Bytes × Bytes) → Option (Device × Nat)
  | [] => some (dev, sector)
  | (fileName, contents) :: files =>
    (fsutilAppend dev sector fileName contents).bind fun (dev, sector) =>
      appendAll dev sector files

/-- What `fsutil_extract` writes to a file. -/
structure Extracted where
  name : Bytes
  size : Nat
  contents : Bytes
  deriving DecidableEq, Repr

/-- The copy loop of `fsutil_extract`. -/
def extractLoop (dev : Device) (sector size : Nat) : Option (Bytes × Nat) :=
  if _h : size = 0 then some ([], sector)
  else (blockRead dev sector).bind fun data =>
    (extractLoop dev (sector + 1) (size - min size sectorSize)).map fun (contents, sector) =>
      (data.take (min size sectorSize) ++ contents, sector)
termination_by size
decreasing_by
  rw [sectorSize]
  omega

/-- The main loop of `fsutil_extract`.  Each round reads a sector, so that it ends
    after `dev.size` rounds at the latest. -/
def extractFrom (dev : Device) : Nat → Nat → Option (List Extracted)
  | 0, _ => none
  | rounds + 1, sector =>
    (blockRead dev sector).bind fun header =>
      match ustarParseHeader header with
      | .error _ => none
      | .ok .eof => some []
      | .ok (.entry _ .directory _) => extractFrom dev rounds (sector + 1)
      | .ok (.entry name .regular size) =>
        (extractLoop dev (sector + 1) size).bind fun (contents, sector) =>
          (extractFrom dev rounds sector).map (⟨name, size, contents⟩ :: ·)

/-- `fsutil_extract`, up to the end of the archive. -/
def fsutilExtract (dev : Device) : Option (List Extracted) := extractFrom dev dev.size 0

/-! ## Sectors on the device -/

/-- The device has these sectors from `start` on. -/
def Holds (dev : Device) (start : Nat) : List Bytes → Prop
  | [] => True
  | sector :: rest => dev.sectors start = sector ∧ Holds dev (start + 1) rest

theorem Holds.congr {dev dev' : Device} (h : Holds dev start l)
    (hsame : ∀ i, start ≤ i → i < start + l.length → dev'.sectors i = dev.sectors i) :
    Holds dev' start l := by
  induction l generalizing start with
  | nil => trivial
  | cons b l ih =>
    rw [List.length_cons] at hsame
    refine ⟨(hsame start le_rfl (by omega)).trans h.1, ih h.2 fun i hi hlt => ?_⟩
    exact hsame i (by omega) (by omega)

theorem holds_append {dev : Device} {l' : List Bytes} :
    Holds dev start (l ++ l') ↔ Holds dev start l ∧ Holds dev (start + l.length) l' := by
  induction l generalizing start with
  | nil => simp [Holds]
  | cons b l ih =>
    have hadd : start + (b :: l).length = start + 1 + l.length := by
      rw [List.length_cons]
      omega
    rw [List.cons_append, Holds, Holds, ih, hadd, and_assoc]

/-- The sectors of a file's contents. -/
def sectorsOf (contents : Bytes) : List Bytes :=
  if _h : contents = [] then []
  else padSector (contents.take sectorSize) :: sectorsOf (contents.drop sectorSize)
termination_by contents.length
decreasing_by
  have := List.length_pos_iff.mpr _h
  rw [List.length_drop, sectorSize]
  omega

theorem sectorsOf_nil : sectorsOf [] = [] := by
  rw [sectorsOf]
  simp

theorem sectorsOf_cons (h : contents ≠ []) :
    sectorsOf contents =
      padSector (contents.take sectorSize) :: sectorsOf (contents.drop sectorSize) := by
  rw [sectorsOf]
  simp [h]

/-- The number of sectors is the length in sectors, rounded up. -/
theorem length_sectorsOf (contents : Bytes) :
    (sectorsOf contents).length = (contents.length + 511) / 512 := by
  induction hn : contents.length using Nat.strong_induction_on generalizing contents with
  | _ n ih =>
    subst hn
    by_cases h : contents = []
    · subst h
      rw [sectorsOf_nil]
      rfl
    · have hpos := List.length_pos_iff.mpr h
      have hlen : (contents.drop sectorSize).length = contents.length - 512 := List.length_drop ..
      rw [sectorsOf_cons h, List.length_cons, ih _ (by omega) _ rfl]
      omega

/-- The sectors below and above those written are unchanged. -/
structure Wrote (dev dev' : Device) (start : Nat) (l : List Bytes) : Prop where
  size : dev'.size = dev.size
  holds : Holds dev' start l
  below : ∀ i < start, dev'.sectors i = dev.sectors i

theorem blockWrite_spec {dev : Device} (h : sector < dev.size) (buffer : Bytes) :
    ∃ dev', blockWrite dev sector buffer = some dev' ∧ Wrote dev dev' sector [buffer] := by
  refine ⟨_, if_pos h, rfl, ⟨update_self .., trivial⟩, fun i hi => ?_⟩
  exact update_of_ne (by omega) ..

/-- Writing behind what has been written. -/
theorem Wrote.append {dev dev' dev'' : Device} {l' : List Bytes}
    (h : Wrote dev dev' start l) (h' : Wrote dev' dev'' (start + l.length) l') :
    Wrote dev dev'' start (l ++ l') := by
  refine ⟨h'.size.trans h.size, holds_append.mpr ⟨?_, h'.holds⟩, fun i hi => ?_⟩
  · exact h.holds.congr fun i _ hi => h'.below i hi
  · exact (h'.below i (by omega)).trans (h.below i hi)

theorem appendLoop_spec {dev : Device} (hfits : sector + (sectorsOf contents).length ≤ dev.size) :
    ∃ dev', appendLoop dev sector contents = some (dev', sector + (sectorsOf contents).length) ∧
      Wrote dev dev' sector (sectorsOf contents) := by
  induction hn : contents.length using Nat.strong_induction_on generalizing dev sector contents with
  | _ n ih =>
    subst hn
    by_cases h : contents = []
    · subst h
      rw [appendLoop, sectorsOf_nil]
      exact ⟨dev, by simp, rfl, trivial, fun _ _ => rfl⟩
    · have hpos := List.length_pos_iff.mpr h
      have hlen : (contents.drop sectorSize).length = contents.length - 512 := List.length_drop ..
      rw [sectorsOf_cons h, List.length_cons] at hfits
      obtain ⟨dev₁, hw, hwrote⟩ := blockWrite_spec (by omega : sector < dev.size)
        (padSector (contents.take sectorSize))
      have hfits' : sector + 1 + (sectorsOf (contents.drop sectorSize)).length ≤ dev₁.size := by
        rw [hwrote.size]
        omega
      obtain ⟨dev₂, hloop, hwrote'⟩ := ih _ (by omega) hfits' rfl
      refine ⟨dev₂, ?_, ?_⟩
      · rw [appendLoop, dif_neg h, if_neg (by omega), hw, Option.bind_some, hloop,
          sectorsOf_cons h, List.length_cons]
        congr 2
        omega
      · rw [sectorsOf_cons h]
        exact hwrote.append hwrote'

/-! ## Appending -/

/-- The sectors of a file in the archive. -/
def entrySectors (fileName contents : Bytes) : List Bytes :=
  (headerFields (stripAntisocialPrefixes fileName) .regular contents.length).withChksum.bytes ::
    sectorsOf contents

/-- The sectors of the archive before the end marker. -/
def archive (files : List (Bytes × Bytes)) : List Bytes :=
  files.flatMap fun file => entrySectors file.1 file.2

theorem archive_cons (file : Bytes × Bytes) (files : List (Bytes × Bytes)) :
    archive (file :: files) = entrySectors file.1 file.2 ++ archive files := rfl

theorem length_entrySectors (fileName contents : Bytes) :
    (entrySectors fileName contents).length = 1 + (contents.length + 511) / 512 := by
  rw [entrySectors, List.length_cons, length_sectorsOf, Nat.add_comm]

theorem fsutilAppend_spec {dev : Device} {fileName : Bytes}
    (hname : (stripAntisocialPrefixes fileName).length ≤ 99)
    (hfits : sector + (entrySectors fileName contents).length + 2 ≤ dev.size) :
    ∃ dev', fsutilAppend dev sector fileName contents =
        some (dev', sector + (entrySectors fileName contents).length) ∧
      Wrote dev dev' sector (entrySectors fileName contents ++ [zeroSector, zeroSector]) := by
  let header :=
    (headerFields (stripAntisocialPrefixes fileName) .regular contents.length).withChksum.bytes
  have hmake : ustarMakeHeader fileName .regular contents.length = some header := if_neg (by omega)
  have hlen : (entrySectors fileName contents).length = (sectorsOf contents).length + 1 := rfl
  -- the header, the contents, and the two sectors of the end marker
  obtain ⟨dev₁, hw₁, h₁⟩ := blockWrite_spec (by omega : sector < dev.size) header
  have hfits₁ : sector + 1 + (sectorsOf contents).length ≤ dev₁.size := by
    rw [h₁.size]
    omega
  obtain ⟨dev₂, hw₂, h₂⟩ := appendLoop_spec hfits₁
  have hentry : Wrote dev dev₂ sector (entrySectors fileName contents) := h₁.append h₂
  have hpos : sector + 1 + (sectorsOf contents).length =
      sector + (entrySectors fileName contents).length := by omega
  rw [hpos] at hw₂
  obtain ⟨dev₃, hw₃, h₃⟩ := blockWrite_spec
    (by rw [hentry.size]; omega : sector + (entrySectors fileName contents).length < dev₂.size)
    zeroSector
  obtain ⟨dev₄, hw₄, h₄⟩ := blockWrite_spec
    (by rw [h₃.size, hentry.size]; omega :
      sector + (entrySectors fileName contents).length + 1 < dev₃.size) zeroSector
  refine ⟨dev₄, ?_, hentry.append (h₃.append h₄)⟩
  rw [fsutilAppend, hmake, Option.bind_some, hw₁, Option.bind_some, hw₂, Option.bind_some]
  simp only
  rw [hw₃, Option.bind_some, hw₄]
  rfl

/-- All files are appended; behind the last one there is a sector of zeros. -/
theorem appendAll_spec {dev : Device} {files : List (Bytes × Bytes)}
    (hnames : ∀ file ∈ files, (stripAntisocialPrefixes file.1).length ≤ 99)
    (hfits : sector + (archive files).length + 2 ≤ dev.size)
    (hend : files = [] → dev.sectors sector = zeroSector) :
    ∃ dev' sector', appendAll dev sector files = some (dev', sector') ∧
      Wrote dev dev' sector (archive files ++ [zeroSector]) := by
  induction files generalizing dev sector with
  | nil => exact ⟨dev, sector, rfl, rfl, ⟨hend rfl, trivial⟩, fun _ _ => rfl⟩
  | cons file files ih =>
    rw [archive_cons, List.length_append] at hfits
    obtain ⟨dev₁, happ, h₁⟩ := fsutilAppend_spec (hnames file (List.mem_cons_self ..))
      (by omega : sector + (entrySectors file.1 file.2).length + 2 ≤ dev.size)
    have hparts := holds_append.mp h₁.holds
    obtain ⟨dev₂, sector₂, hall, h₂⟩ := ih (fun f hf => hnames f (List.mem_cons_of_mem _ hf))
      (by rw [h₁.size]; omega) fun _ => hparts.2.1
    refine ⟨dev₂, sector₂, ?_, ?_⟩
    · rw [appendAll, happ, Option.bind_some]
      exact hall
    · rw [archive_cons, List.append_assoc]
      have hentry : Wrote dev dev₁ sector (entrySectors file.1 file.2) :=
        ⟨h₁.size, hparts.1, h₁.below⟩
      exact hentry.append h₂

/-! ## Extracting -/

theorem blockRead_holds {dev : Device} {b : Bytes}
    (hsize : sector < dev.size) (h : Holds dev sector (b :: l)) : blockRead dev sector = some b :=
  (if_pos hsize).trans (congrArg some h.1)

theorem extractLoop_spec {dev : Device} (h : Holds dev sector (sectorsOf contents))
    (hsize : sector + (sectorsOf contents).length ≤ dev.size) :
    extractLoop dev sector contents.length =
      some (contents, sector + (sectorsOf contents).length) := by
  induction hn : contents.length using Nat.strong_induction_on generalizing sector contents with
  | _ n ih =>
    subst hn
    by_cases hnil : contents = []
    · subst hnil
      rw [extractLoop, sectorsOf_nil]
      rfl
    · have hpos := List.length_pos_iff.mpr hnil
      have hlen : (contents.drop sectorSize).length = contents.length - min contents.length sectorSize := by
        rw [List.length_drop]
        omega
      rw [sectorsOf_cons hnil] at h hsize
      rw [List.length_cons] at hsize
      have hrest := ih (contents.drop sectorSize).length (by rw [List.length_drop, sectorSize]; omega)
        h.2 (by omega) rfl
      -- a whole chunk is read, without the zeros behind it
      have hchunk : (padSector (contents.take sectorSize)).take (min contents.length sectorSize) =
          contents.take sectorSize := by
        have htake : (contents.take sectorSize).length = min contents.length sectorSize := by
          rw [List.length_take, Nat.min_comm]
        rw [padSector, ← htake, List.take_left]
      rw [extractLoop, dif_neg (by omega), blockRead_holds (by omega) h, Option.bind_some, ← hlen,
        hrest, Option.map_some, hchunk]
      show some (contents.take sectorSize ++ contents.drop sectorSize, _) = _
      rw [List.take_append_drop, sectorsOf_cons hnil, List.length_cons]
      congr 2
      omega

theorem isAllZeros_zeroSector : ustarParseHeader zeroSector = .ok .eof := by
  have hzero : isAllZeros zeroSector = true := by
    rw [isAllZeros, List.all_eq_true]
    intro b hb
    rw [(List.mem_replicate.mp hb).2]
    rfl
  rw [ustarParseHeader, if_pos hzero]

theorem extractFrom_spec {dev : Device} {rounds : Nat} {files : List (Bytes × Bytes)}
    (hnames : ∀ file ∈ files, 0 ∉ file.1 ∧ (stripAntisocialPrefixes file.1).length ≤ 99 ∧
      file.2.length < 2 ^ 31)
    (h : Holds dev sector (archive files ++ [zeroSector]))
    (hsize : sector + (archive files).length < dev.size) (hrounds : files.length < rounds) :
    extractFrom dev rounds sector =
      some (files.map fun file =>
        ⟨stripAntisocialPrefixes file.1, file.2.length, file.2⟩) := by
  induction files generalizing sector rounds with
  | nil =>
    obtain ⟨rounds, rfl⟩ : ∃ r, rounds = r + 1 := ⟨rounds - 1, by omega⟩
    have hread : blockRead dev sector = some zeroSector := blockRead_holds hsize h
    rw [extractFrom, hread, Option.bind_some, isAllZeros_zeroSector]
    rfl
  | cons file files ih =>
    obtain ⟨rounds, rfl⟩ : ∃ r, rounds = r + 1 := ⟨rounds - 1, by omega⟩
    obtain ⟨h0, hname, hmax⟩ := hnames file (List.mem_cons_self ..)
    rw [archive_cons, List.append_assoc] at h
    rw [archive_cons, List.length_append, entrySectors, List.length_cons] at hsize
    obtain ⟨hentry, hrest⟩ := holds_append.mp h
    have hread := blockRead_holds (by omega) hentry
    have hmake : ustarMakeHeader file.1 .regular file.2.length = some
        (headerFields (stripAntisocialPrefixes file.1) .regular file.2.length).withChksum.bytes :=
      if_neg (by omega)
    have hparse := ustarParseHeader_make h0 hmax hmake
    have hloop := extractLoop_spec hentry.2 (by omega)
    have hpos : sector + 1 + (sectorsOf file.2).length =
        sector + (entrySectors file.1 file.2).length := by
      rw [entrySectors, List.length_cons]
      omega
    have hrounds' : files.length < rounds := by
      rw [List.length_cons] at hrounds
      omega
    have hfiles := ih (fun f hf => hnames f (List.mem_cons_of_mem _ hf)) hrest
      (by rw [entrySectors, List.length_cons]; omega) hrounds'
    rw [extractFrom, hread, Option.bind_some, hparse]
    simp only [reduceCtorEq, if_false]
    rw [hloop, Option.bind_some]
    simp only
    rw [hpos, hfiles]
    rfl

/-- Each file takes at least one sector. -/
theorem length_le_archive (files : List (Bytes × Bytes)) : files.length ≤ (archive files).length := by
  induction files with
  | nil => exact le_rfl
  | cons file files ih =>
    rw [archive_cons, List.length_append, List.length_cons, length_entrySectors]
    omega

/-- Archives: files of which the stripped names have at most 99 characters, and
    that fit on the device with the end marker, are extracted as they have been
    appended; and every header that is made is parsed back.  If there are no files,
    nothing is written, and the end marker has to be there already. -/
theorem archive_round_trip : (∀ (dev : Device) (files : List (Bytes × Bytes)),
      (∀ file ∈ files, 0 ∉ file.1 ∧ (stripAntisocialPrefixes file.1).length ≤ 99 ∧
        file.2.length < 2 ^ 31) →
      (files.map fun file => 1 + (file.2.length + 511) / 512).sum + 2 ≤ dev.size →
      (files = [] → dev.sectors 0 = zeroSector) →
      ∃ dev' sector', appendAll dev 0 files = some (dev', sector') ∧
        fsutilExtract dev' = some (files.map fun file =>
          ⟨stripAntisocialPrefixes file.1, file.2.length, file.2⟩)) ∧
    (∀ (fileName header : Bytes) (type : UstarType) (size : Nat), 0 ∉ fileName → size < 2 ^ 31 →
      ustarMakeHeader fileName type size = some header →
      ustarParseHeader header = .ok (.entry (stripAntisocialPrefixes fileName) type
        (if type = .directory then 0 else size))) := by
  refine ⟨fun dev files hfiles hfits hend => ?_, fun fileName header type size h0 hsize hmake =>
    ustarParseHeader_make h0 hsize hmake⟩
  have hlen : (archive files).length =
      (files.map fun file => 1 + (file.2.length + 511) / 512).sum := by
    rw [archive, List.length_flatMap]
    simp only [length_entrySectors]
  obtain ⟨dev', sector', happ, hwrote⟩ := appendAll_spec (fun f hf => (hfiles f hf).2.1)
    (by omega : 0 + (archive files).length + 2 ≤ dev.size) hend
  refine ⟨dev', sector', happ, ?_⟩
  have hle := length_le_archive files
  exact extractFrom_spec hfiles hwrote.holds (by rw [hwrote.size]; omega)
    (by rw [hwrote.size]; omega)

/-- A file of two bytes, whose name starts with a slash, and one of 600 bytes. -/
theorem archive_round_trip_two : ∃ dev' sector',
    appendAll ⟨7, fun _ => []⟩ 0 [([47, 97], [1, 2]), ([98], .replicate 600 3)] =
        some (dev', sector') ∧
      fsutilExtract dev' = some [⟨[97], 2, [1, 2]⟩, ⟨[98], 600, .replicate 600 3⟩] := by
  have h := archive_round_trip.1 ⟨7, fun _ => []⟩ [([47, 97], [1, 2]), ([98], .replicate 600 3)]
    (by decide +kernel) (by decide +kernel) nofun
  simp only [List.map_cons, List.map_nil, List.length_replicate] at h
  exact h

end Pintos.Filesys
