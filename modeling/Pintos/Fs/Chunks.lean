/-
  Pintos.Fs.Chunks

  `read_from_fd` and `write_to_fd` (userprog/syscall.c) on an open file, against
  `file_read` and `file_write` (filesys/file.c): the system calls move the data
  through a buffer of one page, one page after the other.

  The user's buffer is the list of its bytes, and the accesses to it do not
  fault.  A size is an unsigned word; `file_read` and `file_write` take it as an
  `off_t`, where a size from `2 ^ 31` on is negative and nothing is moved.
-/

import Pintos.Fs.FileMap

namespace Pintos.Fs

open Pintos.Base Pintos.Lib Function

/-- `struct file`, as far as reading and writing are concerned. -/
structure OpenFile where
  inode : Sector
  pos : Nat
  deriving DecidableEq, Repr

/-- `PGSIZE`, the size of the buffer of the system calls. -/
def chunkMax : Nat := 4096

/-- `file_read`: the bytes read. -/
def fileRead (file : OpenFile) (size : Nat) : M (List UInt8 × OpenFile) := do
  let bytes ← inodeReadAt file.inode (toInt32 size).toNat file.pos
  pure (bytes, { file with pos := file.pos + bytes.length })

/-- `file_write` of the whole buffer: the number of bytes written. -/
def fileWrite (file : OpenFile) (buffer : List UInt8) : M (Nat × OpenFile) := do
  let size := toInt32 buffer.length
  let bytesWritten ← inodeWriteAt file.inode (buffer.take size.toNat) size file.pos
  pure (bytesWritten, { file with pos := file.pos + bytesWritten })

/-- The loop of `read_from_fd`, with `size` bytes to go.  An iteration that does
    not end the loop moves bytes, so `size` iterations are enough. -/
def readChunks : Nat → OpenFile → Nat → M (List UInt8 × OpenFile)
  | 0, file, _ => pure ([], file)
  | fuel + 1, file, size =>
    if size = 0 then pure ([], file)
    else do
      let chunkSize := min size chunkMax
      let (chunk, file) ← fileRead file chunkSize
      if chunk.length < chunkSize then pure (chunk, file)
      else do
        let (rest, file) ← readChunks fuel file (size - chunkSize)
        pure (chunk ++ rest, file)

/-- `read_from_fd`; `none` is the end of the process. -/
def readFromFd (file : OpenFile) (size : Nat) : M (Option (List UInt8 × OpenFile)) := do
  if size = 0 then pure (some ([], file))
  else if ← malloc then some <$> readChunks size file size
  else pure none

/-- The loop of `write_to_fd`, with this buffer to go. -/
def writeChunks : Nat → OpenFile → List UInt8 → M (Nat × OpenFile)
  | 0, file, _ => pure (0, file)
  | fuel + 1, file, buffer =>
    if buffer = [] then pure (0, file)
    else do
      let bounce := buffer.take chunkMax
      let (chunk, file) ← fileWrite file bounce
      if chunk < bounce.length then pure (chunk, file)
      else do
        let (rest, file) ← writeChunks fuel file (buffer.drop chunkMax)
        pure (chunk + rest, file)

/-- `write_to_fd`; `none` is the end of the process. -/
def writeToFd (file : OpenFile) (buffer : List UInt8) : M (Option (Nat × OpenFile)) := do
  if buffer = [] then pure (some (0, file))
  else if ← malloc then some <$> writeChunks buffer.length file buffer
  else pure none

section

variable {s : State} {F : FileMap} {n : Sector} {f : File} {k : Info}

theorem malloc_of_mallocsSucceed (hok : s.MallocsSucceed) :
    malloc s = .ok true (s.setMallocs s.mallocs.tail) := by
  cases hm : s.mallocs with
  | nil =>
    have hsame : s.setMallocs [] = s := by
      rw [← hm]
      rfl
    rw [malloc, hm, List.tail_nil, hsame]
  | cons a rest =>
    rw [malloc, hm, hok a (by rw [hm]; exact List.mem_cons_self), List.tail_cons]

/-! ## Reading -/

section

variable (h : Represents s F) (hok : s.MallocsSucceed) (hF : F n = some f) (hk : s.info n = some k)

include h hok hF hk

theorem fileRead_eq (pos : Nat) {size : Nat} (hsize : size < 2 ^ 31) :
    ∃ l, fileRead ⟨n, pos⟩ size s =
        .ok ((f.bytes.drop pos).take size, ⟨n, pos + ((f.bytes.drop pos).take size).length⟩)
          (s.setMallocs l) ∧ l <:+ s.mallocs := by
  obtain ⟨l, hrun, hl⟩ := h.read hok hF hk size pos
  have hcast : (toInt32 size).toNat = size := by
    rw [toInt32_of_lt (by omega) (by omega)]
    rfl
  refine ⟨l, ?_, hl⟩
  rw [fileRead, hcast, bind_ok hrun]
  rfl

/-- The loop reads what one call reads. -/
theorem readChunks_eq (pos size : Nat) {fuel : Nat} (hfuel : size ≤ fuel) :
    ∃ l, readChunks fuel ⟨n, pos⟩ size s =
        .ok ((f.bytes.drop pos).take size, ⟨n, pos + ((f.bytes.drop pos).take size).length⟩)
          (s.setMallocs l) ∧ l <:+ s.mallocs := by
  induction fuel generalizing s pos size with
  | zero =>
    obtain rfl := Nat.le_zero.mp hfuel
    exact ⟨s.mallocs, rfl, List.suffix_rfl⟩
  | succ fuel ih =>
    rw [readChunks]
    by_cases hzero : size = 0
    · subst hzero
      exact ⟨s.mallocs, rfl, List.suffix_rfl⟩
    rw [if_neg hzero]
    have hmin : min size chunkMax < 2 ^ 31 := by
      rw [chunkMax]
      omega
    have hpos : 0 < chunkMax := by decide
    obtain ⟨l, hrun, hl⟩ := fileRead_eq h hok hF hk pos hmin
    rw [bind_ok hrun]
    by_cases hshort : ((f.bytes.drop pos).take (min size chunkMax)).length < min size chunkMax
    · -- the file ends in this chunk
      have hlen : (f.bytes.drop pos).length < min size chunkMax := by
        rw [List.length_take] at hshort
        omega
      have hsame : (f.bytes.drop pos).take size = (f.bytes.drop pos).take (min size chunkMax) := by
        rw [List.take_of_length_le (by omega), List.take_of_length_le (by omega)]
      refine ⟨l, ?_, hl⟩
      simp only [if_pos hshort, hsame]
      rfl
    · have hfull : ((f.bytes.drop pos).take (min size chunkMax)).length = min size chunkMax :=
        Nat.le_antisymm (List.length_take_le _ _) (Nat.le_of_not_lt hshort)
      obtain ⟨l', hrest, hl'⟩ := ih (h.setMallocs l) (hok.of_suffix hl) hk (pos + min size chunkMax)
        (size - min size chunkMax) (by omega)
      have hwhole : (f.bytes.drop pos).take size = (f.bytes.drop pos).take (min size chunkMax) ++
          (f.bytes.drop (pos + min size chunkMax)).take (size - min size chunkMax) := by
        rw [← List.drop_drop, ← List.take_add, Nat.add_sub_cancel' (Nat.min_le_left _ _)]
      refine ⟨l', ?_, hl'.trans hl⟩
      simp only [if_neg hshort]
      rw [hfull, bind_ok hrest, hwhole, List.length_append, hfull, ← Nat.add_assoc]
      rfl

theorem readFromFd_eq (pos size : Nat) :
    ∃ l, readFromFd ⟨n, pos⟩ size s =
        .ok (some ((f.bytes.drop pos).take size, ⟨n, pos + ((f.bytes.drop pos).take size).length⟩))
          (s.setMallocs l) ∧ l <:+ s.mallocs := by
  rw [readFromFd]
  by_cases hzero : size = 0
  · subst hzero
    exact ⟨s.mallocs, rfl, List.suffix_rfl⟩
  · have htail := List.tail_suffix s.mallocs
    obtain ⟨l, hrun, hl⟩ := readChunks_eq (h.setMallocs s.mallocs.tail) (hok.of_suffix htail) hF hk pos
      size (Nat.le_refl size)
    refine ⟨l, ?_, hl.trans htail⟩
    rw [if_neg hzero, bind_ok (malloc_of_mallocsSucceed hok), if_pos rfl, map_eq_pure_bind,
      bind_ok hrun]
    rfl

/-! ## Writing -/

end

/-- What a write of the buffer makes of a file. -/
def File.write (f : File) (pos : Nat) (buffer : List UInt8) : File :=
  ⟨f.isDir, overwrite (zeroExtend f.bytes (pos + buffer.length)) pos buffer⟩

theorem File.write_length (f : File) (pos : Nat) (buffer : List UInt8) :
    (f.write pos buffer).bytes.length = max f.bytes.length (pos + buffer.length) := by
  simp only [File.write, overwrite, zeroExtend, List.length_append, List.length_take,
    List.length_drop, List.length_replicate]
  omega

theorem File.write_getElem? (f : File) (pos : Nat) (buffer : List UInt8) (j : Nat) :
    (f.write pos buffer).bytes[j]? =
      if pos ≤ j ∧ j < pos + buffer.length then buffer[j - pos]?
      else if j < pos + buffer.length ∧ f.bytes.length ≤ j then some 0 else f.bytes[j]? := by
  rw [File.write, overwrite_getElem? (by simp [zeroExtend]; omega)]
  by_cases hin : pos ≤ j ∧ j < pos + buffer.length
  · rw [if_pos hin, if_pos hin]
  rw [if_neg hin, if_neg hin]
  by_cases hj : j < pos + buffer.length
  · rw [zeroExtend_getElem? _ hj]
    by_cases hold : j < f.bytes.length
    · rw [if_pos hold, if_neg (by omega)]
    · rw [if_neg hold, if_pos (by omega)]
  · rw [if_neg (by omega), zeroExtend]
    by_cases hold : j < f.bytes.length
    · rw [List.getElem?_append_left hold]
    · rw [List.getElem?_append_right (by omega), List.getElem?_eq_none, List.getElem?_eq_none]
      · omega
      · rw [List.length_replicate]
        omega

/-- Two writes in a row are one write. -/
theorem File.write_append (f : File) (pos : Nat) (x y : List UInt8) :
    (f.write pos x).write (pos + x.length) y = f.write pos (x ++ y) := by
  have hbytes : ((f.write pos x).write (pos + x.length) y).bytes = (f.write pos (x ++ y)).bytes := by
    apply List.ext_getElem?
    intro j
    rw [write_getElem?, write_getElem?, write_getElem?, write_length, List.length_append,
      List.getElem?_append, Nat.sub_add_eq]
    split_ifs <;> first | rfl | omega
  exact congrArg (File.mk f.isDir) hbytes

theorem File.write_nil {pos : Nat} (h : pos ≤ f.bytes.length) : f.write pos [] = f := by
  rw [File.write, overwrite_nil, List.length_nil, Nat.add_zero, zeroExtend_of_le h]

section

variable (h : Represents s F) (hok : s.MallocsSucceed) (hF : F n = some f) (hk : s.info n = some k)

include h hok hF hk

theorem fileWrite_eq (hdeny : k.denyWriteCnt = 0) {pos : Nat} {buffer : List UInt8}
    (hbound : pos + buffer.length < 2 ^ 31)
    (hroom : pos + buffer.length ≤ f.bytes.length ∨ HasRoom s n (pos + buffer.length)) :
    ∃ s', fileWrite ⟨n, pos⟩ buffer s = .ok (buffer.length, ⟨n, pos + buffer.length⟩) s' ∧
      Represents s' (update F n (some (f.write pos buffer))) ∧ Evolves s s' ∧
      s'.info = s.info ∧
      ∀ len, pos + buffer.length ≤ len → HasRoom s n len → HasRoom s' n len := by
  obtain ⟨s', hrun, hrep, hev, hinfo, hmore⟩ := h.write hok hF hk hdeny buffer hbound hroom
  have hcast : toInt32 buffer.length = buffer.length := toInt32_of_lt (by omega) (by omega)
  refine ⟨s', ?_, hrep, hev, hinfo, hmore⟩
  simp only [fileWrite, hcast, Int.toNat_natCast, List.take_length]
  rw [bind_ok hrun]
  rfl

/-- The loop writes what one call writes. -/
theorem writeChunks_eq (hdeny : k.denyWriteCnt = 0) (pos : Nat) (buffer : List UInt8)
    {fuel : Nat} (hfuel : buffer.length ≤ fuel) (hbound : pos + buffer.length < 2 ^ 31)
    (hin : buffer = [] → pos ≤ f.bytes.length)
    (hroom : pos + buffer.length ≤ f.bytes.length ∨ HasRoom s n (pos + buffer.length)) :
    ∃ s', writeChunks fuel ⟨n, pos⟩ buffer s = .ok (buffer.length, ⟨n, pos + buffer.length⟩) s' ∧
      Represents s' (update F n (some (f.write pos buffer))) ∧ Evolves s s' ∧
      s'.info = s.info := by
  induction fuel generalizing s F f pos buffer with
  | zero =>
    obtain rfl := List.length_eq_zero_iff.mp (Nat.le_zero.mp hfuel)
    refine ⟨s, rfl, ?_, .refl s, rfl⟩
    rw [File.write_nil (hin rfl), ← hF, update_eq_self]
    exact h
  | succ fuel ih =>
    rw [writeChunks]
    by_cases hnil : buffer = []
    · subst hnil
      refine ⟨s, rfl, ?_, .refl s, rfl⟩
      rw [File.write_nil (hin rfl), ← hF, update_eq_self]
      exact h
    rw [if_neg hnil]
    have hpos : 0 < chunkMax := by decide
    have hlen : 0 < buffer.length := List.length_pos_iff.mpr hnil
    have htake : (buffer.take chunkMax).length ≤ buffer.length := List.length_take_le' _ _
    have hsplit : (buffer.take chunkMax).length + (buffer.drop chunkMax).length = buffer.length := by
      rw [← List.length_append, List.take_append_drop]
    have hroom₁ : pos + (buffer.take chunkMax).length ≤ f.bytes.length ∨
        HasRoom s n (pos + (buffer.take chunkMax).length) := by
      rcases hroom with hinside | hspace
      · left
        omega
      · right
        exact hspace.mono (by omega)
    obtain ⟨s₁, hrun, hrep, hev, hinfo, hmore⟩ := fileWrite_eq h hok hF hk hdeny (by omega) hroom₁
    -- the file is long enough for the rest, or there is still room for it
    have hlong := f.write_length pos (buffer.take chunkMax)
    have hroom₂ : pos + (buffer.take chunkMax).length + (buffer.drop chunkMax).length ≤
          (f.write pos (buffer.take chunkMax)).bytes.length ∨
        HasRoom s₁ n (pos + (buffer.take chunkMax).length + (buffer.drop chunkMax).length) := by
      rw [Nat.add_assoc, hsplit]
      rcases hroom with hinside | hspace
      · left
        omega
      · right
        exact hmore _ (by omega) hspace
    have hchunk : 0 < (buffer.take chunkMax).length := by
      rw [List.length_take]
      omega
    obtain ⟨s₂, hrest, hrep', hev', hinfo'⟩ := ih hrep (hev.mallocsSucceed hok)
      (update_self _ _ _) (by rw [hinfo]; exact hk) _ (buffer.drop chunkMax) (by omega)
      (by omega) (by omega) hroom₂
    refine ⟨s₂, ?_, ?_, hev.trans hev', hinfo'.trans hinfo⟩
    · rw [bind_ok hrun]
      simp only [Nat.lt_irrefl, if_false]
      rw [bind_ok hrest, ← hsplit, ← Nat.add_assoc]
      rfl
    · rw [update_idem, File.write_append, List.take_append_drop] at hrep'
      exact hrep'

theorem writeToFd_eq (hdeny : k.denyWriteCnt = 0) {pos : Nat} {buffer : List UInt8}
    (hbound : pos + buffer.length < 2 ^ 31) (hin : buffer = [] → pos ≤ f.bytes.length)
    (hroom : pos + buffer.length ≤ f.bytes.length ∨ HasRoom s n (pos + buffer.length)) :
    ∃ s', writeToFd ⟨n, pos⟩ buffer s = .ok (some (buffer.length, ⟨n, pos + buffer.length⟩)) s' ∧
      Represents s' (update F n (some (f.write pos buffer))) ∧ s'.info = s.info := by
  rw [writeToFd]
  by_cases hnil : buffer = []
  · subst hnil
    refine ⟨s, rfl, ?_, rfl⟩
    rw [File.write_nil (hin rfl), ← hF, update_eq_self]
    exact h
  · have htail := List.tail_suffix s.mallocs
    have hok' : (s.setMallocs s.mallocs.tail).MallocsSucceed := hok.of_suffix htail
    have hroom' : pos + buffer.length ≤ f.bytes.length ∨
        HasRoom (s.setMallocs s.mallocs.tail) n (pos + buffer.length) := by
      rcases hroom with hinside | ⟨hcap, i, hi, hcan⟩
      · exact .inl hinside
      · have hfree : (s.setMallocs s.mallocs.tail).freeMap = s.freeMap := rfl
        exact .inr ⟨hcap, i, hi, .of_freeMap hok' hfree hcan⟩
    obtain ⟨s', hrun, hrep, -, hinfo⟩ := writeChunks_eq (h.setMallocs s.mallocs.tail) hok' hF hk hdeny
      pos buffer (Nat.le_refl _) hbound hin hroom'
    refine ⟨s', ?_, hrep, hinfo⟩
    rw [if_neg hnil, bind_ok (malloc_of_mallocsSucceed hok), if_pos rfl, map_eq_pure_bind,
      bind_ok hrun]
    rfl

end

theorem fileWrite_denied (hk : s.info n = some k) (hdeny : k.denyWriteCnt ≠ 0) (pos : Nat)
    (buffer : List UInt8) : fileWrite ⟨n, pos⟩ buffer s = .ok (0, ⟨n, pos⟩) s := by
  obtain ⟨i, hi, -, -, hdenyi⟩ := exists_inode_of_info hk
  rw [← hdenyi] at hdeny
  rw [fileWrite, bind_ok (inodeWriteAt_denied hi hdeny _ _ _)]
  rfl

theorem writeToFd_denied (hok : s.MallocsSucceed) (hk : s.info n = some k) (hdeny : k.denyWriteCnt ≠ 0)
    (pos : Nat) (buffer : List UInt8) :
    ∃ l, writeToFd ⟨n, pos⟩ buffer s = .ok (some (0, ⟨n, pos⟩)) (s.setMallocs l) := by
  rw [writeToFd]
  by_cases hnil : buffer = []
  · subst hnil
    exact ⟨s.mallocs, rfl⟩
  obtain ⟨b, rest, rfl⟩ := List.exists_cons_of_ne_nil hnil
  refine ⟨s.mallocs.tail, ?_⟩
  have hrun := fileWrite_denied (s := s.setMallocs s.mallocs.tail) hk hdeny pos
    ((b :: rest).take chunkMax)
  rw [if_neg hnil, bind_ok (malloc_of_mallocsSucceed hok), if_pos rfl, map_eq_pure_bind,
    List.length_cons, writeChunks, if_neg hnil, bind_assoc, bind_ok hrun]
  rfl

end

/-- With memory for the buffers, the system calls do what one call for the whole
    size does.  What is not so: a direct read or write takes a size from `2 ^ 31` on
    as negative, and a direct write of nothing behind the end makes the file longer. -/
theorem chunked_io_eq_direct {s : State} {F : FileMap} {n : Sector} {f : File} {k : Info}
    (h : Represents s F) (hok : s.MallocsSucceed) (hF : F n = some f) (hk : s.info n = some k)
    (pos size : Nat) (buffer : List UInt8) :
    (size < 2 ^ 31 → ∃ bytes file s₁ s₂, readFromFd ⟨n, pos⟩ size s = .ok (some (bytes, file)) s₁ ∧
      fileRead ⟨n, pos⟩ size s = .ok (bytes, file) s₂ ∧
      Represents s₁ F ∧ Represents s₂ F ∧ s₁.info = s.info ∧ s₂.info = s.info) ∧
    ((pos + buffer.length ≤ f.bytes.length ∨ HasRoom s n (pos + buffer.length)) ∧
        (buffer = [] → pos ≤ f.bytes.length) ∨ k.denyWriteCnt ≠ 0 →
      ∃ w file F' s₁ s₂, writeToFd ⟨n, pos⟩ buffer s = .ok (some (w, file)) s₁ ∧
        fileWrite ⟨n, pos⟩ buffer s = .ok (w, file) s₂ ∧
        Represents s₁ F' ∧ Represents s₂ F' ∧ s₁.info = s.info ∧ s₂.info = s.info) := by
  refine ⟨fun hsize => ?_, fun hwrite => ?_⟩
  · obtain ⟨l₁, hrun₁, -⟩ := readFromFd_eq h hok hF hk pos size
    obtain ⟨l₂, hrun₂, -⟩ := fileRead_eq h hok hF hk pos hsize
    exact ⟨_, _, _, _, hrun₁, hrun₂, h.setMallocs l₁, h.setMallocs l₂, rfl, rfl⟩
  by_cases hdeny : k.denyWriteCnt = 0
  · obtain ⟨hroom, hin⟩ := hwrite.resolve_right (not_not_intro hdeny)
    have hbound : pos + buffer.length < 2 ^ 31 := by
      have hmax : ((pos + buffer.length : Nat) : Int) ≤ capacityBytes := by
        rcases hroom with hinside | ⟨hcap, -⟩
        · exact le_trans (by exact_mod_cast hinside) (h.length_le hF hk)
        · exact hcap
      rw [capacityBytes, capacity_eq] at hmax
      simp only [BLOCK_SECTOR_SIZE] at hmax
      omega
    obtain ⟨s₁, hrun₁, hrep₁, hinfo₁⟩ := writeToFd_eq h hok hF hk hdeny hbound hin hroom
    obtain ⟨s₂, hrun₂, hrep₂, -, hinfo₂, -⟩ := fileWrite_eq h hok hF hk hdeny hbound hroom
    exact ⟨_, _, _, s₁, s₂, hrun₁, hrun₂, hrep₁, hrep₂, hinfo₁, hinfo₂⟩
  · obtain ⟨l, hrun⟩ := writeToFd_denied hok hk hdeny pos buffer
    exact ⟨_, _, F, _, s, hrun, fileWrite_denied hk hdeny pos buffer, h.setMallocs l, h, rfl, rfl⟩

/-- The device with `free` free sectors and an empty file open. -/
def smallOpen (free : Nat) : State :=
  { small free with
    disk := fun p => if p = 0 then smallFreeMap.data else zeros
    openInodes := [smallFreeMap, ⟨1, 1, false, 0, zeros⟩] }

def smallStore : Store := fun n =>
  if n = 0 then some smallFreeMap.data else if n = 1 then some zeros else none

def smallOwner : Owner := fun p =>
  if p = 0 then some (0, none) else if p = 1 then some (1, none)
  else if p = 2 then some (0, some (.data 0)) else none

theorem smallStore_cases {n : Sector} {d : Memory} (h : smallStore n = some d) :
    n = 0 ∧ d = smallFreeMap.data ∨ n = 1 ∧ d = zeros := by
  simp only [smallStore] at h
  split_ifs at h with h₀ h₁
  · exact .inl ⟨h₀, (Option.some.inj h).symm⟩
  · exact .inr ⟨h₁, (Option.some.inj h).symm⟩

theorem sectors_zeros : sectors zeros = 0 := by decide

section

variable {free : Nat}

theorem smallOpen_owned (hfree : free ≤ 4000) :
    Owned (smallOpen free) (filesOf smallStore) smallOwner where
  len := small_len free
  small := small_size_le hfree
  used p r hp := by
    simp only [smallOwner] at hp
    split_ifs at hp with h₀ h₁ h₂
    · rw [h₀]
      rfl
    · rw [h₁]
      rfl
    · rw [h₂]
      rfl
  closed n d S hn := by
    rw [(of_filesOf_eq_some hn).2]
    exact closed_needs _
  maps n d S hn := by
    obtain ⟨hd, rfl⟩ := of_filesOf_eq_some hn
    intro σ hσ
    rcases smallStore_cases hd with ⟨rfl, rfl⟩ | ⟨rfl, rfl⟩
    · rw [sectors_smallFreeMap] at hσ
      rw [mem_needs_one hσ, slotSector_smallFreeMap]
      rfl
    · rw [sectors_zeros] at hσ
      cases σ <;> simp [inner_mem_needs] at hσ
  file _ := ⟨smallFreeMap, 1, smallFreeMap.data, Needs 1, {
    inode := rfl
    writable := rfl
    long := small_long hfree
    short := by
      rw [length_smallFreeMap]
      decide
    cap := by decide
    live := by
      rw [filesOf_eq_some (d := smallFreeMap.data) rfl, sectors_smallFreeMap]
    needs := fun _ h => h
    roots := .refl _ _ }⟩

theorem smallOpen_consistent (hfree : free ≤ 4000) :
    Consistent (smallOpen free) smallStore smallOwner where
  owned := smallOpen_owned hfree
  mounted := rfl
  header n d hn := by rcases smallStore_cases hn with ⟨rfl, rfl⟩ | ⟨rfl, rfl⟩ <;> rfl
  nonneg n d hn := by rcases smallStore_cases hn with ⟨rfl, rfl⟩ | ⟨rfl, rfl⟩ <;> decide
  cap n d hn := by rcases smallStore_cases hn with ⟨rfl, rfl⟩ | ⟨rfl, rfl⟩ <;> decide
  memory i hi := by
    simp only [smallOpen, List.mem_cons, List.not_mem_nil, or_false] at hi
    rcases hi with rfl | rfl <;> rfl
  nodup := by simp [smallOpen, smallFreeMap]
  counted i hi := by
    simp only [smallOpen, List.mem_cons, List.not_mem_nil, or_false] at hi
    rcases hi with rfl | rfl <;> decide
  onDisk n d hn := by
    rcases smallStore_cases hn with ⟨rfl, rfl⟩ | ⟨rfl, rfl⟩ <;> exact ⟨rfl, rfl, .refl _ _⟩
  closed n d hn hclosed := by
    rcases smallStore_cases hn with ⟨rfl, rfl⟩ | ⟨rfl, rfl⟩ <;> cases hclosed
  tail n d hn hne k hk hlt := by
    rcases smallStore_cases hn with ⟨rfl, rfl⟩ | ⟨rfl, rfl⟩
    · exact absurd rfl hne
    · rw [sectors_zeros] at hlt
      omega

def smallFiles : FileMap := fun n => if n = 1 then some ⟨false, []⟩ else none

theorem smallOpen_represents (hfree : free ≤ 4000) : Represents (smallOpen free) smallFiles := by
  refine ⟨smallStore, smallOwner, smallOpen_consistent hfree, ?_⟩
  funext n
  by_cases h₀ : n = 0
  · subst h₀
    rfl
  by_cases h₁ : n = 1
  · subst h₁
    have hdir : isDir zeros = 0 := by decide
    rw [view_of_eq (d := zeros) rfl (by decide), contents, length_zeros, hdir]
    rfl
  · rw [view, if_neg (show n ≠ FREE_MAP_SECTOR from h₀), smallStore, if_neg h₀, if_neg h₁, smallFiles,
      if_neg h₁]
    rfl

theorem smallFiles_one : smallFiles 1 = some ⟨false, []⟩ := rfl

theorem smallOpen_info (free : Nat) : (smallOpen free).info 1 = some ⟨1, false, 0⟩ := rfl

theorem smallOpen_hasRoom {len : Nat} (hcap : len ≤ capacityBytes)
    (hroom : slotsNeeded zeros len ≤ free) : HasRoom (smallOpen free) 1 len :=
  ⟨hcap, ⟨1, 1, false, 0, zeros⟩, rfl, canAllocate_small.mpr hroom⟩

/-- Bytes are written to the empty file. -/
theorem smallOpen_write (hfree : free ≤ 4000) (pos : Nat) (buffer : List UInt8)
    (hbound : pos + buffer.length < 2 ^ 31)
    (hroom : HasRoom (smallOpen free) 1 (pos + buffer.length)) :
    ∃ s f, fileWrite ⟨1, pos⟩ buffer (smallOpen free) =
        .ok (buffer.length, ⟨1, pos + buffer.length⟩) s ∧
      Represents s (update smallFiles 1 (some f)) ∧ s.MallocsSucceed ∧
      s.info 1 = some ⟨1, false, 0⟩ ∧ f.bytes.length = pos + buffer.length := by
  have hok : (smallOpen free).MallocsSucceed := nofun
  obtain ⟨s, hrun, hrep, hev, hinfo, -⟩ := fileWrite_eq (smallOpen_represents hfree) hok
    smallFiles_one (smallOpen_info free) rfl hbound (.inr hroom)
  refine ⟨s, _, hrun, hrep, hev.mallocsSucceed hok, ?_, ?_⟩
  · rw [hinfo, smallOpen_info]
  · rw [File.write_length]
    exact Nat.max_eq_right (Nat.zero_le _)

end

/-- A file of 5000 bytes is read and is overwritten, in two chunks each. -/
theorem chunked_io_eq_direct_two_chunks : ∃ s,
    (∃ bytes file s₁ s₂, readFromFd ⟨1, 0⟩ 5000 s = .ok (some (bytes, file)) s₁ ∧
      fileRead ⟨1, 0⟩ 5000 s = .ok (bytes, file) s₂ ∧ bytes.length = 5000) ∧
    ∃ w file s₁ s₂, writeToFd ⟨1, 0⟩ (.replicate 5000 1) s = .ok (some (w, file)) s₁ ∧
      fileWrite ⟨1, 0⟩ (.replicate 5000 1) s = .ok (w, file) s₂ ∧ w = 5000 := by
  have hlen : (List.replicate 5000 (1 : UInt8)).length = 5000 := List.length_replicate
  obtain ⟨s, f, -, hrep, hok, hinfo, hf⟩ := smallOpen_write (by decide : 20 ≤ 4000) 0
    (.replicate 5000 1) (by rw [hlen]; decide)
    (by rw [hlen]; exact smallOpen_hasRoom (by decide) (by decide))
  have hF : update smallFiles 1 (some f) 1 = some f := update_self _ _ _
  obtain ⟨hread, hwrite⟩ := chunked_io_eq_direct hrep hok hF hinfo 0 5000 (.replicate 5000 1)
  obtain ⟨bytes, file, s₁, s₂, h₁, h₂, -⟩ := hread (by decide)
  have hroom : 0 + (List.replicate 5000 (1 : UInt8)).length ≤ f.bytes.length := by omega
  obtain ⟨w, file', -, s₁', s₂', h₁', h₂', -⟩ := hwrite (.inl ⟨.inl hroom, nofun⟩)
  refine ⟨s, ⟨bytes, file, s₁, s₂, h₁, h₂, ?_⟩, w, file', s₁', s₂', h₁', h₂', ?_⟩
  · obtain ⟨l, hall, -⟩ := fileRead_eq hrep hok hF hinfo 0 (by decide : 5000 < 2 ^ 31)
    cases h₂.symm.trans hall
    rw [List.length_take, List.drop_zero]
    omega
  · obtain ⟨s₃, hall, -⟩ := fileWrite_eq hrep hok hF hinfo rfl (by omega) (.inl hroom)
    cases h₂'.symm.trans hall
    exact hlen

/-- A write of nothing four bytes behind the end: the file stays empty, and the
    direct call makes it longer.  A read of `2 ^ 31` bytes, which the direct call takes
    as a negative size.  A read without memory for the buffer, which ends the
    process. -/
theorem chunked_io_differs :
    (∃ s₁ s₂ i₁ i₂, writeToFd ⟨1, 4⟩ [] (smallOpen 1) = .ok (some (0, ⟨1, 4⟩)) s₁ ∧
      fileWrite ⟨1, 4⟩ [] (smallOpen 1) = .ok (0, ⟨1, 4⟩) s₂ ∧
      s₁.inode? 1 = some i₁ ∧ length i₁.data = 0 ∧ s₂.inode? 1 = some i₂ ∧ length i₂.data = 4) ∧
    (∃ s bytes file s₁ s₂, readFromFd ⟨1, 0⟩ (2 ^ 31) s = .ok (some (bytes, file)) s₁ ∧
      fileRead ⟨1, 0⟩ (2 ^ 31) s = .ok ([], ⟨1, 0⟩) s₂ ∧ bytes.length = 4) ∧
    ∃ s s₁, readFromFd ⟨1, 0⟩ 4 s = .ok none s₁ ∧ fileRead ⟨1, 0⟩ 4 s = .ok ([], ⟨1, 0⟩) s := by
  refine ⟨?_, ?_, (smallOpen 1).setMallocs [false], _, rfl, rfl⟩
  · obtain ⟨s₂, f, hrun, hrep, -, hinfo, hf⟩ := smallOpen_write (by decide : 1 ≤ 4000) 4 []
      (by decide) (smallOpen_hasRoom (by decide) (by decide))
    obtain ⟨i₂, hi₂, -⟩ := exists_inode_of_info hinfo
    refine ⟨smallOpen 1, s₂, _, i₂, rfl, hrun, rfl, length_zeros, hi₂, ?_⟩
    rw [hrep.length_file (update_self _ _ _) hi₂, hf]
    rfl
  · obtain ⟨s, f, -, hrep, hok, hinfo, hf⟩ := smallOpen_write (by decide : 1 ≤ 4000) 0
      [1, 2, 3, 4] (by decide) (smallOpen_hasRoom (by decide) (by decide))
    obtain ⟨l, hread, -⟩ := readFromFd_eq hrep hok (update_self _ _ _) hinfo 0 (2 ^ 31)
    obtain ⟨i, hi, -⟩ := exists_inode_of_info hinfo
    refine ⟨s, _, _, _, s, hread, ?_, ?_⟩
    · rw [fileRead, show (toInt32 (2 ^ 31 : Nat)).toNat = 0 by decide, inodeReadAt, bind_assoc,
        bind_ok (getInode_eq hi)]
      rfl
    · rw [List.length_take, List.drop_zero, hf]
      decide

end Pintos.Fs
