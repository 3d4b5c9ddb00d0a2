import WllOs.Fs.PageCache

namespace WllOs.Fs

variable {pos offset len : Nat} {buf data : List UInt8}

theorem pageByte_pageUpdate (page : Page) (pos : Nat) (bytes : Nat → Option UInt8) :
    pageByte (pageUpdate page (pos / pageSize) bytes) pos = (bytes pos).getD (pageByte page pos) := by
  simp only [pageByte, pageUpdate]
  rw [Nat.div_add_mod']

theorem placed_of_mem (h : offset ≤ pos) (h' : pos < offset + buf.length) :
    placed offset buf pos = some (buf.getD (pos - offset) 0) := by
  have : pos - offset < buf.length := by omega
  simp [placed, h, List.getD_eq_getElem?_getD, List.getElem?_eq_getElem this]

theorem placed_of_not_mem (h : pos < offset ∨ offset + buf.length ≤ pos) : placed offset buf pos = none := by
  simp only [placed]
  split
  case isTrue => exact List.getElem?_eq_none (by omega)
  case isFalse => rfl

theorem placed_eq_none_iff : placed offset buf pos = none ↔ pos < offset ∨ offset + buf.length ≤ pos := by
  constructor
  case mp =>
    intro h
    by_cases hm : offset ≤ pos ∧ pos < offset + buf.length
    case pos => simp [placed_of_mem hm.left hm.right] at h
    case neg => omega
  case mpr => exact placed_of_not_mem

-- A buffer that is put in two parts.
theorem placed_append (left right : List UInt8) : placed offset (left ++ right) pos =
    (placed (offset + left.length) right pos).or (placed offset left pos) := by
  simp only [placed, List.getElem?_append]
  grind

namespace DiskFile

variable {file file' : DiskFile}

-- All blocks below the size are there.
structure NoHoles (file : DiskFile) : Prop where
  blocks : ∀ block ∈ file.blocks, block.isSome
  enough : file.fileBlocks ≤ file.blocks.length

theorem blockCount_le {size count : Nat} : blockCount size ≤ count ↔ size ≤ count * pageSize := by
  have := pageSize_pos
  rw [blockCount, Nat.div_le_iff_le_mul this]
  omega

theorem div_lt_blockCount {size : Nat} (h : pos < size) : pos / pageSize < blockCount size := by
  rw [← Nat.not_le, blockCount_le, Nat.not_le]
  exact Nat.lt_of_le_of_lt (Nat.div_mul_le_self pos pageSize) h

theorem byte_eq_of_block {page : Page} (h : file.blocks[pos / pageSize]? = some (some page)) :
    file.byte pos = pageByte page pos := by
  simp [byte, h]

theorem NoHoles.block (h : file.NoHoles) (hp : pos < file.blocks.length * pageSize) :
    ∃ page, file.blocks[pos / pageSize]? = some (some page) := by
  have hl : pos / pageSize < file.blocks.length := Nat.div_lt_of_lt_mul (by rwa [Nat.mul_comm])
  have := h.blocks _ (List.getElem_mem hl)
  have ⟨page, hp⟩ := Option.isSome_iff_exists.mp this
  exact ⟨page, by simp [List.getElem?_eq_getElem hl, hp]⟩

theorem NoHoles.size_le (h : file.NoHoles) : file.size ≤ file.blocks.length * pageSize :=
  blockCount_le.mp h.enough

theorem byte_updateBlocks (bytes : Nat → Option UInt8) {size : Nat} :
    ({ size, blocks := file.updateBlocks bytes } : DiskFile).byte pos =
      match (file.blocks[pos / pageSize]?).join with
      | some _ => (bytes pos).getD (file.byte pos)
      | none   => 0 := by
  simp only [byte, updateBlocks, List.getElem?_mapIdx]
  cases hb : file.blocks[pos / pageSize]?
  case none => rfl
  case some block =>
    cases block
    case none => rfl
    case some page => simp [pageByte_pageUpdate]

theorem NoHoles.byte_updateBlocks (h : file.NoHoles) (bytes : Nat → Option UInt8) {size : Nat}
    (hp : pos < file.blocks.length * pageSize) :
    ({ size, blocks := file.updateBlocks bytes } : DiskFile).byte pos = (bytes pos).getD (file.byte pos) := by
  have ⟨page, hb⟩ := h.block hp
  rw [DiskFile.byte_updateBlocks]
  simp [hb]

theorem NoHoles.updateBlocks (h : file.NoHoles) (bytes : Nat → Option UInt8) {size : Nat}
    (hs : size ≤ file.blocks.length * pageSize) :
    ({ size, blocks := file.updateBlocks bytes } : DiskFile).NoHoles where
  blocks := by
    simp only [DiskFile.updateBlocks, List.mem_mapIdx]
    rintro _ ⟨index, hi, rfl⟩
    simpa using h.blocks _ (List.getElem_mem hi)
  enough := by simpa [fileBlocks, DiskFile.updateBlocks, blockCount_le] using hs

-- Reading stops at the end of the file.
theorem extentAwareReadAt_min (hs : file.size ≤ EXT_MAX_SIZE) (offset len : Nat) :
    file.extentAwareReadAt offset len =
      .ok ((List.range (min len (file.size - offset))).map fun i => file.byte (offset + i)) := by
  simp only [extentAwareReadAt]
  split
  case isTrue ho =>
    have : min len (file.size - offset) = 0 := by omega
    simp [this]
  case isFalse ho =>
    split
    case isTrue hb =>
      simp only [EXT_MAX_SIZE, pageSize] at hs
      simp only [pageSize] at hb
      omega
    case isFalse => rfl

theorem extentAwareReadAt_eq (hs : file.size ≤ EXT_MAX_SIZE) (h : offset + len ≤ file.size) :
    file.extentAwareReadAt offset len = .ok ((List.range len).map fun i => file.byte (offset + i)) := by
  rw [extentAwareReadAt_min hs, Nat.min_eq_left (by omega)]

theorem append_eq (h : file.NoHoles) (allocated : List Page) :
    file.append allocated = { file with blocks := file.blocks ++ allocated.map some } := by
  simp [append, Nat.sub_eq_zero_of_le h.enough]

theorem NoHoles.append (h : file.NoHoles) (allocated : List Page) : (file.append allocated).NoHoles := by
  rw [append_eq h]
  constructor
  case blocks =>
    intro block hb
    obtain hb | hb := List.mem_append.mp hb
    case inl => exact h.blocks block hb
    case inr =>
      have ⟨page, _, hb⟩ := List.mem_map.mp hb
      simp [← hb]
  case enough =>
    have := h.enough
    simp only [fileBlocks, List.length_append] at this ⊢
    omega

theorem byte_append (h : file.NoHoles) (allocated : List Page) (hp : pos < file.size) :
    (file.append allocated).byte pos = file.byte pos := by
  have hl : pos / pageSize < file.blocks.length :=
    Nat.lt_of_lt_of_le (div_lt_blockCount hp) h.enough
  simp only [append_eq h, byte, List.getElem?_append_left hl]

@[simp]
theorem truncateInode_size (newSize : Nat) : (file.truncateInode newSize).size = newSize :=
  rfl

-- The blocks of a file that is truncated: the last one is zero from the new end on.
def lastZeroed (file : DiskFile) (newSize : Nat) : List (Option Page) :=
  if newSize % pageSize = 0 then file.blocks
  else file.blocks.modify (newSize / pageSize) (Option.map (pageUpdate · (newSize / pageSize) (zeroFrom newSize)))

theorem truncateInode_blocks (newSize : Nat) : (file.truncateInode newSize).blocks =
    if file.fileBlocks > blockCount newSize then (file.lastZeroed newSize).take (blockCount newSize)
    else file.lastZeroed newSize :=
  rfl

@[simp]
theorem length_lastZeroed (newSize : Nat) : (file.lastZeroed newSize).length = file.blocks.length := by
  simp only [lastZeroed]
  split <;> simp

theorem getElem?_lastZeroed {newSize : Nat} (hp : pos < newSize) :
    (((file.lastZeroed newSize)[pos / pageSize]?).join.map (pageByte · pos)).getD 0 = file.byte pos := by
  simp only [lastZeroed, byte]
  split
  case isTrue => rfl
  case isFalse =>
    rw [List.getElem?_modify]
    split
    case isTrue he =>
      cases file.blocks[pos / pageSize]?
      case none => rfl
      case some block =>
        cases block
        case none => rfl
        case some page =>
          have hz : zeroFrom newSize pos = none := by simp [zeroFrom, Nat.not_le.mpr hp]
          simp [he, pageByte_pageUpdate, hz]
    case isFalse => simp

theorem byte_truncateInode {newSize : Nat} (hp : pos < newSize) :
    (file.truncateInode newSize).byte pos = file.byte pos := by
  rw [← @getElem?_lastZeroed pos file newSize hp]
  simp only [byte, truncateInode_blocks]
  split
  case isTrue => rw [List.getElem?_take_of_lt (div_lt_blockCount hp)]
  case isFalse => rfl

theorem NoHoles.lastZeroed (h : file.NoHoles) (newSize : Nat) : ∀ block ∈ file.lastZeroed newSize, block.isSome := by
  simp only [DiskFile.lastZeroed]
  split
  case isTrue => exact h.blocks
  case isFalse =>
    intro block hb
    have ⟨index, hi, he⟩ := List.getElem_of_mem hb
    rw [List.getElem_modify] at he
    have hs := h.blocks _ (List.getElem_mem (by simpa using hi))
    split at he
    case isTrue => simpa [← he] using hs
    case isFalse => simpa [← he] using hs

theorem NoHoles.truncateInode (h : file.NoHoles) {newSize : Nat} (hs : newSize ≤ file.size) :
    (file.truncateInode newSize).NoHoles := by
  have hc : blockCount newSize ≤ file.fileBlocks :=
    blockCount_le.mpr (Nat.le_trans hs (blockCount_le.mp (Nat.le_refl _)))
  constructor
  case blocks =>
    rw [truncateInode_blocks]
    split
    case isTrue =>
      intro block hb
      exact h.lastZeroed newSize block (List.mem_of_mem_take hb)
    case isFalse => exact h.lastZeroed newSize
  case enough =>
    have := h.enough
    rw [truncateInode_blocks]
    split
    case isTrue =>
      simp only [fileBlocks, truncateInode_size, List.length_take, length_lastZeroed] at hc this ⊢
      exact Nat.le_min.mpr ⟨Nat.le_refl _, Nat.le_trans hc this⟩
    case isFalse =>
      simp only [fileBlocks, truncateInode_size, length_lastZeroed] at hc this ⊢
      exact Nat.le_trans hc this

theorem maxFileSize_le : EXT4_MAX_FILE_SIZE ≤ EXT_MAX_SIZE := by
  simp [EXT4_MAX_FILE_SIZE, EXT_MAX_SIZE, pageSize]

-- What a write that stores `n` bytes makes of a file.
structure Stored (file : DiskFile) (offset : Nat) (data : List UInt8) (n : Nat) (file' : DiskFile) : Prop where
  noHoles : file'.NoHoles
  le : n ≤ data.length
  size : file'.size = max file.size (offset + n)
  bound : file.size ≤ EXT_MAX_SIZE → file'.size ≤ EXT_MAX_SIZE
  byte : ∀ pos < file'.size, file'.byte pos = (placed offset (data.take n) pos).getD (file.byte pos)

-- A write that fails may have stored some of the bytes.
structure Failed (file : DiskFile) (offset : Nat) (data : List UInt8) (file' : DiskFile) : Prop where
  noHoles : file'.NoHoles
  size : file'.size = file.size
  byte : ∀ pos < file.size, file'.byte pos = file.byte pos ∨ placed offset data pos = some (file'.byte pos)

theorem Failed.refl (h : file.NoHoles) : file.Failed offset data file where
  noHoles := h
  size := rfl
  byte _ _ := .inl rfl

-- The blocks that a write has allocated are enough for the data.
structure Ready (file : DiskFile) (offset len : Nat) (file' : DiskFile) : Prop where
  noHoles : file'.NoHoles
  size : file'.size = file.size
  byte : ∀ pos < file.size, file'.byte pos = file.byte pos
  room : offset + len ≤ file'.blocks.length * pageSize

theorem Ready.failed (h : file.Ready offset len file') : file.Failed offset data file' where
  noHoles := h.noHoles
  size := h.size
  byte pos hp := .inl (h.byte pos hp)

section

variable {allocated n : Nat} {err : SysErrNo} {written : DiskFile}

theorem writeBlocks_ok (hr : file.Ready offset data.length file') (ho : offset ≤ file.size)
    (h : file.writeBlocks true offset data allocated file' = (.ok n, written)) :
    file.Stored offset data n written ∧ n = data.length := by
  have hb (size pos : Nat) (hp : pos < max file.size (offset + data.length)) :
      ({ size, blocks := file'.updateBlocks (placed offset data) } : DiskFile).byte pos =
        (placed offset data pos).getD (file.byte pos) := by
    have hl := hr.noHoles.size_le
    have hr' := hr.room
    rw [hr.size] at hl
    rw [hr.noHoles.byte_updateBlocks _ (by omega)]
    by_cases hs : pos < file.size
    case pos => rw [hr.byte pos hs]
    case neg =>
      have hm : placed offset data pos = some _ := placed_of_mem (by omega) (by omega)
      simp [hm]
  simp only [writeBlocks, if_true] at h
  split at h
  case isTrue => cases h
  case isFalse =>
    split at h
    case isTrue hn =>
      cases h
      refine ⟨⟨?_, Nat.le_refl _, ?_, ?_, ?_⟩, rfl⟩
      · exact hr.noHoles.updateBlocks _ hr.noHoles.size_le
      · simp only [hr.size]
        omega
      · intro hm
        simpa only [hr.size] using hm
      · intro pos hp
        rw [List.take_length]
        apply hb
        simp only [hr.size] at hp
        omega
    case isFalse hn =>
      split at h
      case isTrue => cases h
      case isFalse he =>
        cases h
        refine ⟨⟨?_, Nat.le_refl _, ?_, ?_, ?_⟩, rfl⟩
        · exact hr.noHoles.updateBlocks _ hr.room
        · dsimp only
          omega
        · intro _
          exact Nat.le_trans (Nat.not_lt.mp he) maxFileSize_le
        · intro pos hp
          rw [List.take_length]
          apply hb
          dsimp only at hp
          omega

theorem writeBlocks_error (hr : file.Ready offset data.length file')
    (h : file.writeBlocks true offset data allocated file' = (.error err, written)) :
    file.Failed offset data written := by
  simp only [writeBlocks, if_true] at h
  split at h
  case isTrue =>
    cases h
    exact hr.failed
  case isFalse =>
    split at h
    case isTrue => cases h
    case isFalse =>
      split at h
      case isFalse => cases h
      case isTrue =>
        cases h
        refine ⟨hr.noHoles.updateBlocks _ hr.noHoles.size_le, hr.size, ?_⟩
        intro pos hp
        have hl := hr.noHoles.size_le
        rw [hr.size] at hl
        rw [hr.noHoles.byte_updateBlocks _ (by omega), hr.byte pos hp]
        cases placed offset data pos
        case none => exact .inl rfl
        case some => exact .inr rfl

end

theorem div_le_fileBlocks (h : offset ≤ file.size) : offset / pageSize ≤ file.fileBlocks := by
  have := blockCount_le.mp (Nat.le_refl file.fileBlocks)
  exact Nat.div_le_of_le_mul (by rw [Nat.mul_comm]; omega)

theorem le_toAllocate (h : offset ≤ file.size) (len : Nat) :
    offset + len ≤ (file.fileBlocks + file.toAllocate offset len) * pageSize := by
  have := div_le_fileBlocks h
  rw [← blockCount_le]
  simp only [toAllocate]
  split <;> omega

theorem le_allocatedRoom (h : offset ≤ file.size) {allocated : Nat} (hr : allocatedRoom offset allocated ≠ 0) :
    offset + allocatedRoom offset allocated ≤ (file.fileBlocks + allocated) * pageSize := by
  have hd := div_le_fileBlocks h
  have hm := Nat.div_add_mod' offset pageSize
  have hp := pageSize_pos
  have hl := Nat.mod_lt offset hp
  have he : offset + allocatedRoom offset allocated = (offset / pageSize + allocated) * pageSize := by
    simp only [allocatedRoom] at hr ⊢
    split
    case isTrue hu =>
      rw [if_pos hu] at hr
      split
      case isTrue ha =>
        obtain ⟨allocated, rfl⟩ := Nat.exists_eq_add_of_lt ha
        simp only [Nat.add_mul]
        simp only [Nat.zero_add, Nat.add_sub_cancel, Nat.one_mul]
        omega
      case isFalse ha => simp [ha] at hr
    case isFalse hu =>
      rw [Nat.add_mul]
      omega
  rw [he]
  exact Nat.mul_le_mul_right _ (by omega)

theorem NoHoles.ready (h : file.NoHoles) (allocated : List Page)
    (hr : offset + len ≤ (file.fileBlocks + allocated.length) * pageSize) :
    file.Ready offset len (if allocated.isEmpty then file else file.append allocated) := by
  have he := Nat.mul_le_mul_right pageSize h.enough
  rw [Nat.add_mul] at hr
  split
  case isTrue ha =>
    simp only [List.isEmpty_iff.mp ha, List.length_nil] at hr
    exact ⟨h, rfl, fun _ _ => rfl, by omega⟩
  case isFalse =>
    refine ⟨h.append allocated, rfl, fun pos hp => byte_append h allocated hp, ?_⟩
    simp only [append_eq h, List.length_append, List.length_map, Nat.add_mul]
    omega

-- What a write leaves on the disk, if the device stores it.
def WriteSpec (file : DiskFile) (offset : Nat) (data : List UInt8) : Except SysErrNo Nat × DiskFile → Prop
  | (.ok n, written)    => file.Stored offset data n written
  | (.error _, written) => file.Failed offset data written

theorem writeBlocks_spec {allocated : Nat} (hr : file.Ready offset data.length file') (ho : offset ≤ file.size) :
    file.WriteSpec offset data (file.writeBlocks true offset data allocated file') := by
  cases h : file.writeBlocks true offset data allocated file'
  case mk result written =>
    cases result
    case ok n => exact (writeBlocks_ok hr ho h).left
    case error => exact writeBlocks_error hr h

theorem WriteSpec.of_take {room : Nat} {result : Except SysErrNo Nat × DiskFile}
    (h : file.WriteSpec offset (data.take room) result) : file.WriteSpec offset data result := by
  match result, h with
  | (.ok n, written), h =>
    have hn : min n room = n := Nat.min_eq_left (Nat.le_trans h.le (List.length_take_le _ _))
    refine ⟨h.noHoles, Nat.le_trans h.le (List.length_take_le' _ _), h.size, h.bound, ?_⟩
    have hb := h.byte
    rwa [List.take_take, hn] at hb
  | (.error _, written), h =>
    refine ⟨h.noHoles, h.size, ?_⟩
    intro pos hp
    apply (h.byte pos hp).imp_right
    simp only [placed]
    split
    case isTrue =>
      rw [List.getElem?_take]
      split
      case isTrue => exact id
      case isFalse => simp
    case isFalse => exact id

theorem writeAt_spec (h : file.NoHoles) (ho : offset ≤ file.size) {outcome : DiskOutcome} (hs : outcome.stored) :
    file.WriteSpec offset data (file.writeAt outcome offset data) := by
  simp only [writeAt, hs]
  split
  case isTrue =>
    refine ⟨h, Nat.zero_le _, (Nat.max_eq_left ho).symm, id, ?_⟩
    intro pos _
    simp [placed]
  case isFalse =>
    split
    case h_1 => exact .refl h
    case h_2 supply _ =>
      split
      case isTrue hw =>
        have hf := le_toAllocate ho data.length
        rw [← hw] at hf
        exact writeBlocks_spec (h.ready _ hf) ho
      case isFalse =>
        split
        case isTrue =>
          have hb := blockCount_le.mp (Nat.le_refl file.fileBlocks)
          have hm := Nat.mul_le_mul_right pageSize (Nat.le_add_right file.fileBlocks
            (supply.take (file.toAllocate offset data.length)).length)
          have hle : offset + 0 ≤
              (file.fileBlocks + (supply.take (file.toAllocate offset data.length)).length) * pageSize := by omega
          exact (h.ready _ hle).failed
        case isFalse hr =>
          apply WriteSpec.of_take
          apply writeBlocks_spec (h.ready _ _) ho
          have := le_allocatedRoom ho hr
          have := List.length_take_le (allocatedRoom offset
            (supply.take (file.toAllocate offset data.length)).length) data
          omega

end DiskFile

end WllOs.Fs
