import WllOs.Fs.Theorems.MemFileContent
import WllOs.Fs.Theorems.Objects
import WllOs.Fs.UserIo

namespace WllOs

theorem MemFileContent.length_readAt (content : MemFileContent) (offset : Nat) (buf : List UInt8) :
    (content.readAt offset buf).fst ≤ buf.length ∧ (content.readAt offset buf).snd.length = buf.length := by
  simp only [readAt]
  split
  case isTrue => exact ⟨Nat.zero_le _, rfl⟩
  case isFalse h =>
    have hm : min buf.length (content.len - offset) ≤ buf.length := Nat.min_le_left ..
    cases content
    case inline content =>
      refine ⟨hm, Buffer.length_overwrite ?_⟩
      rw [Buffer.length_slice]
      omega
    case chunked len chunks =>
      have zeros : (Buffer.overwrite buf 0 (List.replicate (min buf.length (len - offset)) 0)).length = buf.length :=
        Buffer.length_overwrite (by simp)
      have zero i (hi : i < min buf.length (len - offset)) :
          (Buffer.overwrite buf 0 (List.replicate (min buf.length (len - offset)) 0)).getD i 0 = 0 := by
        rw [Buffer.getD_overwrite (Nat.zero_le _), if_pos (by simpa using hi)]
        grind
      have read := chunks.readLoop_eq offset 0 (zeros.symm ▸ hm) fun i _ => zero i
      exact ⟨hm, read.left.trans zeros⟩

namespace Fs

namespace Objects

variable {δ : Type} {objects : Objects δ}

@[simp]
theorem setPipe_self {state : Nat} : objects.setPipe state (objects.pipes state) = objects := by
  simp [setPipe]

@[simp]
theorem setEventFd_self {state : Nat} : objects.setEventFd state (objects.eventFds state) = objects := by
  simp [setEventFd]

end Objects

theorem SocketState.read_queued {socket : SocketState} {sockets : Sockets} {len : Nat} {bytes : List UInt8}
    (hl : len > 0) (h : (socket.read sockets len).fst = .ok bytes) :
    bytes.length ≤ socket.queued - (socket.read sockets len).snd.fst.queued ∧
      (socket.queued - (socket.read sockets len).snd.fst.queued = bytes.length ↔
        socket.shutdownRead || !socket.isMessageOriented
          || socket.dgramQueue.head?.all fun packet => packet.data.length ≤ len) := by
  revert h
  simp only [SocketState.read, hl.ne', if_false]
  split
  case isTrue hs => rintro ⟨⟩; simp [hs]
  case isFalse hs =>
    split
    case isTrue => rintro ⟨⟩
    case isFalse =>
      split
      case isTrue hm =>
        split
        case h_1 packet queue hq =>
          rintro ⟨⟩
          simp only [queued, hq, List.map_cons, List.sum_cons, List.length_take, hs, hm, List.head?_cons,
            Option.all_some, Bool.false_or, Bool.not_true, decide_eq_true_eq]
          omega
        case h_2 hq =>
          split
          case isTrue  => rintro ⟨⟩; simp [hq]
          case isFalse => rintro ⟨⟩
      case isFalse hm =>
        split
        case isTrue =>
          split
          case isTrue  => rintro ⟨⟩; simp [hm]
          case isFalse => rintro ⟨⟩
        case isFalse =>
          rintro ⟨⟩
          simp [queued, hm]
          omega

namespace UserCall

variable {δ : Type} {file file' : FileDescriptor} {objects objects' : Objects δ} {memory : UserMemory}
variable {total taken : Nat}

@[simp]
theorem exact_ok {n : Nat} :
    (UserCall.mk (.returned (.ok n)) file' objects' memory taken).Exact total file objects ↔ taken + total = n where
  mp h  := h.taken
  mpr h := ⟨h, nofun⟩

@[simp]
theorem exact_error {err : SysErrNo} :
    (UserCall.mk (.returned (.error err)) file' objects' memory taken).Exact total file objects ↔
      taken + total = 0 ∧ file' = file ∧ objects' = objects where
  mp h  := ⟨h.taken, h.error err rfl⟩
  mpr h := ⟨h.left, fun _ _ => h.right⟩

@[simp]
theorem exact_waits {delivered : Nat} :
    (UserCall.mk (.waits delivered) file' objects' memory taken).Exact total file objects ↔
      taken + total = delivered where
  mp h  := h.taken
  mpr h := ⟨h, nofun⟩

end UserCall

namespace FileDescriptor

variable {δ : Type} {volume : Volume δ} {objects : Objects δ} {memory : UserMemory} {file : FileDescriptor}
variable {len : Nat} {bytes : List UInt8} {err : SysErrNo}

theorem readMemFile_error {memFile' : MemFile} (h : (readMemFile objects memFile' len).fst = .error err) :
    (readMemFile objects memFile' len).snd = memFile' := by
  revert h
  simp only [readMemFile]
  repeat' split
  all_goals first | exact fun _ => rfl | exact nofun

theorem readExt4Regular_error {regular : Ext4Regular}
    (h : (readExt4Regular volume objects regular len).fst = .error err) :
    (readExt4Regular volume objects regular len).snd = regular := by
  revert h
  simp only [readExt4Regular]
  repeat' split
  all_goals first | exact fun _ => rfl | (intro hr; cases hr)

theorem readLoopDevice_error {device : LoopDevice}
    (h : (readLoopDevice volume objects device len).fst = .error err) :
    (readLoopDevice volume objects device len).snd = device := by
  revert h
  simp only [readLoopDevice]
  repeat' split
  all_goals first | exact fun _ => rfl | (intro hr; cases hr)

-- A read that fails takes nothing.
theorem read_error (h : (read volume objects file len).result = .error err) :
    (read volume objects file len).file = file ∧ (read volume objects file len).objects = objects := by
  cases file
  case stdin => cases h
  case memFile => exact ⟨congrArg _ (readMemFile_error h), rfl⟩
  case ext4Regular => exact ⟨congrArg _ (readExt4Regular_error h), rfl⟩
  case loopDevice => exact ⟨congrArg _ (readLoopDevice_error h), rfl⟩
  case pipeRead pipe =>
    refine ⟨rfl, ?_⟩
    simp only [read, PipeState.read_error h, Objects.setPipe_self]
  case eventFd state =>
    refine ⟨rfl, ?_⟩
    simp only [read, EventFdState.read_error h, Objects.setEventFd_self]
  case socket state =>
    refine ⟨rfl, ?_⟩
    simp only [read, SocketState.read_error h, Sockets.update_self]
  all_goals exact ⟨rfl, rfl⟩

-- The offset does not get past the greatest number when it advances by `len`.
def Unsaturated (file : FileDescriptor) (len : Nat) : Prop :=
  match file with
  | memFile file | loopDevice file => file.offset + len ≤ Usize.max
  | _ => True

theorem readMemFile_ok {memFile' : MemFile} (hu : memFile'.offset + len ≤ Usize.max)
    (h : (readMemFile objects memFile' len).fst = .ok bytes) :
    bytes.length ≤ len ∧ (readMemFile objects memFile' len).snd.offset = memFile'.offset + bytes.length := by
  revert h
  simp only [readMemFile]
  split
  case isTrue => exact nofun
  case isFalse =>
    split
    case isTrue => rintro ⟨⟩; simp
    case isFalse =>
      split
      case isTrue =>
        rintro ⟨⟩
        simp [Usize.saturatingAdd_eq hu]
      case isFalse =>
        split
        case isTrue => rintro ⟨⟩; simp
        case isFalse =>
          rintro ⟨⟩
          have ⟨hf, hs⟩ := MemFileContent.length_readAt (objects.store.backings memFile'.backing) memFile'.offset
            (List.replicate len 0)
          rw [List.length_replicate] at hf hs
          simp [hs, hf]

theorem readExt4Regular_ok {regular : Ext4Regular}
    (h : (readExt4Regular volume objects regular len).fst = .ok bytes) :
    bytes.length ≤ len ∧ (readExt4Regular volume objects regular len).snd.offset = regular.offset + bytes.length := by
  revert h
  simp only [readExt4Regular]
  split
  case isTrue => rintro ⟨⟩
  case isFalse =>
    split
    case h_1 => rintro ⟨⟩
    case h_2 hr => rintro ⟨⟩; exact ⟨volume.length_readAt hr, rfl⟩

theorem readLoopDevice_ok {device : LoopDevice} (hu : device.offset + len ≤ Usize.max)
    (h : (readLoopDevice volume objects device len).fst = .ok bytes) :
    bytes.length ≤ len ∧ (readLoopDevice volume objects device len).snd.offset = device.offset + bytes.length := by
  revert h
  simp only [readLoopDevice]
  split
  case isTrue => rintro ⟨⟩
  case isFalse =>
    split
    case h_1 => rintro ⟨⟩
    case h_2 hr =>
      rintro ⟨⟩
      have hl := volume.length_loopReadAt hr
      exact ⟨hl, Usize.saturatingAdd_eq (by omega)⟩

theorem read_length (hu : file.Unsaturated len) (h : (read volume objects file len).result = .ok bytes) :
    bytes.length ≤ len := by
  cases file
  case stdin =>
    cases h
    exact List.length_take_le ..
  case memFile => exact (readMemFile_ok hu h).left
  case ext4Regular => exact (readExt4Regular_ok h).left
  case loopDevice => exact (readLoopDevice_ok hu h).left
  case pipeRead pipe =>
    rw [(PipeState.read_ok h).left]
    exact List.length_take_le ..
  case eventFd state =>
    have ⟨hb, hl, _⟩ := EventFdState.read_ok h
    exact hb.trans_le hl
  case socket state => exact SocketState.length_read h
  all_goals cases h

-- A read takes off as many bytes as it gives, if it is not of a message.
theorem read_consumed (hu : file.Unsaturated len) (hl : len > 0)
    (h : (read volume objects file len).result = .ok bytes) :
    bytes.length ≤ consumed objects (read volume objects file len).objects file (read volume objects file len).file ∧
      (consumed objects (read volume objects file len).objects file (read volume objects file len).file
        = bytes.length ↔ file.messageFits objects len) := by
  cases file
  case stdin =>
    cases h
    simp only [consumed, read, messageFits]
    cases objects.console.input
    case nil  => simp
    case cons => simp; omega
  case memFile =>
    have ⟨hb, ho⟩ := readMemFile_ok hu h
    simp [consumed, read, messageFits, ho]
  case ext4Regular =>
    have ⟨hb, ho⟩ := readExt4Regular_ok h
    simp [consumed, read, messageFits, ho]
  case loopDevice =>
    have ⟨hb, ho⟩ := readLoopDevice_ok hu h
    simp [consumed, read, messageFits, ho]
  case pipeRead pipe =>
    have ⟨hb, hd, _⟩ := PipeState.read_ok h
    simp [consumed, read, messageFits, Objects.setPipe, hb, hd]
    omega
  case eventFd state =>
    have ⟨hb, _, hc⟩ := EventFdState.read_ok h
    simp [consumed, read, messageFits, Objects.setEventFd, hb, hc]
  case socket state =>
    simp [consumed, read, Sockets.update]
    exact SocketState.read_queued hl h
  all_goals cases h

@[simp]
theorem consumed_self : consumed objects objects file file = 0 := by
  cases file <;> simp [consumed]

theorem read_zero (hf : file ≠ stdin) (hu : file.Unsaturated 0) (h : (read volume objects file 0).result = .ok bytes) :
    bytes = [] ∧ consumed objects (read volume objects file 0).objects file (read volume objects file 0).file = 0 := by
  cases file
  case stdin => exact absurd rfl hf
  case memFile =>
    have ⟨hb, ho⟩ := readMemFile_ok hu h
    simp [consumed, read, ho, List.length_eq_zero_iff.mp (Nat.le_zero.mp hb)]
  case ext4Regular =>
    have ⟨hb, ho⟩ := readExt4Regular_ok h
    simp [consumed, read, ho, List.length_eq_zero_iff.mp (Nat.le_zero.mp hb)]
  case loopDevice =>
    have ⟨hb, ho⟩ := readLoopDevice_ok hu h
    simp [consumed, read, ho, List.length_eq_zero_iff.mp (Nat.le_zero.mp hb)]
  case pipeRead pipe =>
    cases h
    simp [consumed, read, PipeState.read]
  case socket state =>
    cases h
    simp [consumed, read, SocketState.read]
  case eventFd => cases h
  all_goals cases h

theorem bufferedRead_exact {buf : Nat} (hu : file.Unsaturated len) (hl : len > 0) :
    (bufferedRead volume objects memory file buf len).Exact 0 file objects ↔
      Delivered volume objects file len fun bytes => ∃ memory', memory.copyToUser buf bytes = .ok memory' := by
  cases hr : (read volume objects file len).result
  case error err =>
    have ⟨hf, ho⟩ := read_error hr
    refine iff_of_true ?_ fun bytes hb => by simp [hr] at hb
    simp only [bufferedRead, hr, hf, ho, failed]
    split
    case isTrue h => exact absurd rfl h
    case isFalse =>
      split
      case isTrue  => simp
      case isFalse => simp
  case ok bytes =>
    have ⟨hb, hm⟩ := read_consumed hu hl hr
    have delivered : (Delivered volume objects file len fun bytes => ∃ memory', memory.copyToUser buf bytes = .ok memory')
        ↔ file.messageFits objects len ∧ ∃ memory', memory.copyToUser buf bytes = .ok memory' := by
      constructor
      case mp  => exact fun h => h bytes hr
      case mpr => rintro h _ hr'; cases hr.symm.trans hr'; exact h
    rw [delivered]
    cases hc : memory.copyToUser buf bytes
    case error err =>
      -- Bytes have been taken and are lost.
      refine iff_of_false ?_ (by simp)
      simp only [bufferedRead, hr, hc]
      rw [UserCall.exact_error]
      rintro ⟨-, hf, ho⟩
      rw [hf, ho, consumed_self] at hb
      cases List.length_eq_zero_iff.mp (Nat.le_zero.mp hb)
      cases hc
    case ok memory' =>
      simp only [bufferedRead, hr, hc]
      simpa using hm

theorem OffsetFits.unsaturated (h : file.OffsetFits) (hl : len ≤ MAX_FILE_OFFSET) : file.Unsaturated len := by
  cases file
  case memFile =>
    simp only [OffsetFits, Unsaturated, MAX_FILE_OFFSET, Usize.max] at *
    omega
  case loopDevice =>
    simp only [OffsetFits, Unsaturated, MAX_FILE_OFFSET, Usize.max] at *
    omega
  all_goals trivial

theorem directRead_none {dst : Nat} (h : directReadFdToUser memory file dst len = .ok none) : ¬file.readsDirectly := by
  cases file
  case memFile =>
    simp only [directReadFdToUser] at h
    split at h
    case isTrue =>
      repeat' split at h
      all_goals cases h
    case isFalse hn => exact hn
  all_goals exact nofun

theorem directRead_some (objects : Objects δ) {dst n : Nat} {file' : FileDescriptor} {memory' : UserMemory}
    (hu : file.Unsaturated len)
    (h : directReadFdToUser memory file dst len = .ok (some (n, file', memory'))) :
    file.readsDirectly ∧ consumed objects objects file file' = n := by
  cases file
  case memFile =>
    simp only [directReadFdToUser] at h
    split at h
    case isFalse => cases h
    case isTrue hd =>
      refine ⟨hd, ?_⟩
      split at h
      case isTrue => cases h
      case isFalse =>
        split at h
        case isTrue => cases h; simp
        case isFalse =>
          split at h
          case h_1 => cases h
          case h_2 =>
            cases h
            simp [consumed, Usize.saturatingAdd_eq hu]
  all_goals cases h

theorem directRead_error {dst : Nat} (h : directReadFdToUser memory file dst len = .error err) :
    file.readsDirectly := by
  cases file
  case memFile =>
    simp only [directReadFdToUser] at h
    split at h
    case isTrue hd => exact hd
    case isFalse => cases h
  all_goals cases h

theorem sysRead_zero {buf : Nat} (hu : file.OffsetFits) :
    (sysRead volume objects memory file buf 0).Exact 0 file objects ↔ (file = stdin → objects.console.input = []) := by
  by_cases hf : file = stdin
  case pos =>
    subst hf
    cases hi : objects.console.input <;> simp [sysRead, read, consumed, hi, Except.map]
  case neg =>
    refine iff_of_true ?_ fun h => absurd h hf
    cases hr : (read volume objects file 0).result
    case error err =>
      have ⟨hfile, ho⟩ := read_error hr
      simp [sysRead, hr, Except.map, hfile, ho]
    case ok bytes =>
      have ⟨hb, hc⟩ := read_zero hf (hu.unsaturated (Nat.zero_le _)) hr
      simp [sysRead, hr, Except.map, hb, hc]

theorem sysRead_exact_iff {buf count : Nat} (hu : file.OffsetFits) :
    (sysRead volume objects memory file buf count).Exact 0 file objects ↔
      ReadDelivered volume objects memory file buf count := by
  by_cases hc : count = 0
  case pos => subst hc; exact sysRead_zero hu
  case neg =>
    simp only [sysRead, ReadDelivered, hc, if_false]
    split
    case isTrue hb => exact iff_of_true (by simp) fun h => absurd hb h
    case isFalse hb =>
      split
      case isTrue hm => exact iff_of_true (by simp) fun _ h => absurd h (Nat.not_le.mpr hm)
      case isFalse hm =>
        have unsaturated := hu.unsaturated (Nat.not_lt.mp hm)
        have buffered : (bufferedRead volume objects memory file buf count).Exact 0 file objects ↔ _ :=
          bufferedRead_exact unsaturated (Nat.pos_of_ne_zero hc)
        split
        case isTrue hs =>
          split
          case h_1 hd => exact iff_of_true (by simp) fun _ _ h => absurd ⟨hs, directRead_error hd⟩ h
          case h_2 hd =>
            have ⟨direct, taken⟩ := directRead_some objects unsaturated hd
            exact iff_of_true (UserCall.exact_ok.mpr taken) fun _ _ h => absurd ⟨hs, direct⟩ h
          case h_3 hd => simpa [hb, Nat.not_lt.mp hm, directRead_none hd] using buffered
        case isFalse hs => simpa [hb, Nat.not_lt.mp hm, hs] using buffered

-- The records that are read, and the ones that the offset passes.
theorem readDirents_eq (entries : List (Nat × DirEntryRecord)) (offset room : Nat) :
    offset ≤ (readDirents entries offset room).fst ∧
      (((entries.zipIdx offset).take ((readDirents entries offset room).fst - offset)).map fun entry =>
        (dirent entry.fst.fst (entry.snd + 1) entry.fst.snd).length).sum
        = (readDirents entries offset room).snd.length ∧
      ((readDirents entries offset room).fst = offset → (readDirents entries offset room).snd = []) := by
  induction entries generalizing offset room
  case nil => simp [readDirents]
  case cons entry entries hi =>
    simp only [readDirents]
    split
    case isTrue => simp
    case isFalse =>
      have ⟨hl, hs, _⟩ := hi (offset + 1) (room - (dirent entry.fst (offset + 1) entry.snd).length)
      have he : (readDirents entries (offset + 1)
          (room - (dirent entry.fst (offset + 1) entry.snd).length)).fst - offset =
        (readDirents entries (offset + 1)
          (room - (dirent entry.fst (offset + 1) entry.snd).length)).fst - (offset + 1) + 1 := by omega
      refine ⟨by omega, ?_, by omega⟩
      rw [he, List.zipIdx_cons, List.take_succ_cons, List.map_cons, List.sum_cons, hs, List.length_append]

-- The records that are returned are those that are passed, and an offset that stays passes none.
theorem readDirents64_ok (h : (readDirents64 volume objects file len).fst = .ok bytes) :
    passedBy volume objects file (readDirents64 volume objects file len).snd = bytes.length ∧
      ((readDirents64 volume objects file len).snd = file → bytes = []) := by
  cases file
  case memDir dir =>
    cases h
    have ⟨_, hs, hn⟩ := readDirents_eq ((numbered dir.entries).drop dir.offset) dir.offset len
    exact ⟨hs, fun he => hn (congrArg MemDir.offset (memDir.inj he))⟩
  case ext4Dir dir =>
    simp only [readDirents64] at h ⊢
    split at h
    case h_1 => cases h
    case h_2 entries hl =>
      cases h
      have ⟨_, hs, hn⟩ := readDirents_eq (entries.drop dir.offset) dir.offset len
      simp only [hl, passedBy, Except.toOption, Option.map_some, Option.getD_some]
      exact ⟨hs, fun he => hn (congrArg Ext4Dir.offset (ext4Dir.inj he))⟩
  all_goals cases h

@[simp]
theorem passedBy_self : passedBy volume objects file file = 0 := by
  cases file
  case ext4Dir dir => cases h : volume.listDir objects.store.disk dir.ino <;> simp [passedBy, passed, h, Except.toOption]
  all_goals simp [passedBy, passed]

theorem readDirents64_error (h : (readDirents64 volume objects file len).fst = .error err) :
    (readDirents64 volume objects file len).snd = file := by
  cases file
  case memDir => cases h
  case ext4Dir =>
    simp only [readDirents64] at h ⊢
    split at h
    case h_1 => rfl
    case h_2 => cases h
  all_goals rfl

theorem sysGetdents64_exact_iff {dirp count : Nat} :
    (sysGetdents64 volume objects memory file dirp count).Exact 0 file objects ↔
      DirentsDelivered volume objects memory file dirp count := by
  simp only [sysGetdents64]
  split
  case isTrue hd => exact iff_of_true (by simp) fun h => absurd hd h
  case isFalse hd =>
    cases hr : (readDirents64 volume objects file count).fst
    case error err =>
      refine iff_of_true ?_ fun _ bytes hb => by simp [hr] at hb
      simp [readDirents64_error hr]
    case ok bytes =>
      obtain ⟨hp, hs⟩ := readDirents64_ok hr
      cases hc : memory.copyToUser dirp bytes
      case error err =>
        refine iff_of_false (fun h => ?_) fun h => ?_
        case refine_1 =>
          simp only [hc, UserCall.exact_error] at h
          cases hs h.right.left
          cases hc
        case refine_2 => simpa [hc] using h hd bytes hr
      case ok memory' =>
        refine iff_of_true (by simpa [hc] using hp) fun _ bytes' hb => ?_
        cases hr.symm.trans hb
        exact ⟨memory', hc⟩

theorem scatter_fst (memory : UserMemory) (iovecs : List IoVec) (bytes : List UInt8) :
    (IoVec.scatter memory iovecs bytes).fst ≤ bytes.length ∧
      ((IoVec.scatter memory iovecs bytes).snd.snd = none → bytes.length ≤ IoVec.totalLen iovecs →
        (IoVec.scatter memory iovecs bytes).fst = bytes.length) ∧
      ((IoVec.scatter memory iovecs bytes).snd.snd ≠ none →
        (IoVec.scatter memory iovecs bytes).fst < bytes.length) := by
  induction iovecs generalizing memory bytes
  case nil => simp +contextual [IoVec.scatter, IoVec.totalLen]
  case cons iovec iovecs hi =>
    simp only [IoVec.scatter]
    split
    case isTrue h => simp_all
    case isFalse h =>
      have pos : 0 < bytes.length := List.length_pos_iff.mpr (by simpa using h)
      split
      case isTrue => simp [pos]
      case isFalse =>
        split
        case h_1 => simp [pos]
        case h_2 memory' _ =>
          obtain ⟨hl, hn, hs⟩ := hi memory' (bytes.drop iovec.len)
          rw [List.length_drop] at hl hn hs
          simp only [List.length_take, IoVec.totalLen, List.map_cons, List.sum_cons] at *
          refine ⟨by omega, fun hnone ht => ?_, fun hsome => ?_⟩
          case refine_1 =>
            have := hn hnone (by omega)
            omega
          case refine_2 =>
            have := hs hsome
            omega

@[simp]
theorem scatter_nil {iovecs : List IoVec} : IoVec.scatter memory iovecs [] = (0, memory, none) := by
  cases iovecs <;> simp [IoVec.scatter]

theorem Unsaturated.mono {n : Nat} (hu : file.Unsaturated n) (hl : len ≤ n) : file.Unsaturated len := by
  cases file
  case memFile    => exact Nat.le_trans (Nat.add_le_add_left hl _) hu
  case loopDevice => exact Nat.le_trans (Nat.add_le_add_left hl _) hu
  all_goals trivial

theorem Unsaturated.read {n : Nat} (hu : file.Unsaturated n) (hl : len ≤ n)
    (h : (read volume objects file len).result = .ok bytes) :
    (FileDescriptor.read volume objects file len).file.Unsaturated (n - bytes.length) := by
  cases file
  case memFile file =>
    have ⟨hb, ho⟩ := readMemFile_ok (hu.mono hl) h
    simp only [Unsaturated, FileDescriptor.read, ho] at hu ⊢
    omega
  case loopDevice device =>
    have ⟨hb, ho⟩ := readLoopDevice_ok (hu.mono hl) h
    simp only [Unsaturated, FileDescriptor.read, ho] at hu ⊢
    omega
  all_goals trivial

-- What a call that goes on from `total` bytes does to the account.
structure Accounts (call : UserCall δ) (file : FileDescriptor) (objects : Objects δ) (total taken : Nat)
    (delivered : Prop) : Prop where
  ge : taken + call.delivered ≤ call.taken + total
  eq : call.taken + total = taken + call.delivered ↔ delivered
  error : ∀ err, call.outcome = .returned (.error err) →
    total = 0 ∧ (call.file = file ∧ call.objects = objects ↔ delivered)

section Accounts

variable {file' : FileDescriptor} {objects' : Objects δ} {total taken taken' n : Nat} {delivered : Prop}

theorem accounts_ok : Accounts ⟨.returned (.ok n), file', objects', memory, taken'⟩ file objects total taken delivered ↔
    taken + n ≤ taken' + total ∧ (taken' + total = taken + n ↔ delivered) where
  mp h  := ⟨h.ge, h.eq⟩
  mpr h := ⟨h.left, h.right, nofun⟩

theorem accounts_error (ht : total = 0) (h : taken' = taken ↔ delivered) (hg : taken ≤ taken')
    (hs : file' = file ∧ objects' = objects ↔ delivered) :
    Accounts ⟨.returned (.error err), file', objects', memory, taken'⟩ file objects total taken delivered where
  ge := by simpa [UserCall.delivered, ht] using hg
  eq := by simpa [UserCall.delivered, ht] using h
  error _ _ := ⟨ht, hs⟩

theorem accounts_waits :
    Accounts ⟨.waits n, file', objects', memory, taken'⟩ file objects total taken delivered ↔
      taken + n ≤ taken' + total ∧ (taken' + total = taken + n ↔ delivered) where
  mp h  := ⟨h.ge, h.eq⟩
  mpr h := ⟨h.left, h.right, nofun⟩

end Accounts

theorem chunksDelivered_error {iovecs : List IoVec}
    (h : (read volume objects file (min (IoVec.totalLen iovecs) VECTORED_IO_CHUNK)).result = .error err) :
    ChunksDelivered volume iovecs file objects memory := by
  rw [ChunksDelivered]
  refine fun _ => ⟨fun bytes hb => ?_, fun bytes hb => ?_⟩
  all_goals simp [h] at hb

theorem chunksDelivered_ok {iovecs : List IoVec} (hw : min (IoVec.totalLen iovecs) VECTORED_IO_CHUNK ≠ 0)
    (h : (read volume objects file (min (IoVec.totalLen iovecs) VECTORED_IO_CHUNK)).result = .ok bytes) :
    ChunksDelivered volume iovecs file objects memory ↔
      (file.messageFits objects (min (IoVec.totalLen iovecs) VECTORED_IO_CHUNK) ∧
        (IoVec.scatter memory iovecs bytes).snd.snd = none) ∧
        (bytes.length ≥ min (IoVec.totalLen iovecs) VECTORED_IO_CHUNK →
          (IoVec.scatter memory iovecs bytes).fst ≥ bytes.length →
            ChunksDelivered volume (IoVec.advance (IoVec.scatter memory iovecs bytes).fst iovecs)
              (read volume objects file (min (IoVec.totalLen iovecs) VECTORED_IO_CHUNK)).file
              (read volume objects file (min (IoVec.totalLen iovecs) VECTORED_IO_CHUNK)).objects
              (IoVec.scatter memory iovecs bytes).snd.fst) := by
  rw [ChunksDelivered]
  constructor
  case mp =>
    intro hd
    have ⟨hl, hr⟩ := hd hw
    exact ⟨hl bytes h, hr bytes h⟩
  case mpr =>
    rintro ⟨hl, hr⟩ _
    refine ⟨fun bytes' hb => ?_, fun bytes' hb => ?_⟩
    all_goals cases h.symm.trans hb
    case refine_1 => exact hl
    case refine_2 => exact hr

theorem readChunks_accounts (volume : Volume δ) (iovecs : List IoVec) (total taken : Nat) (file : FileDescriptor)
    (objects : Objects δ) (memory : UserMemory) (hu : file.Unsaturated (IoVec.totalLen iovecs)) :
    Accounts (readChunks volume iovecs total taken file objects memory) file objects total taken
      (ChunksDelivered volume iovecs file objects memory) := by
  induction iovecs, total, taken, file, objects, memory using readChunks.induct volume
  case case1 iovecs total taken file objects memory want hw =>
    rw [readChunks, ChunksDelivered, if_pos hw, accounts_ok]
    exact ⟨le_rfl, iff_of_true rfl fun h => absurd hw h⟩
  case case2 iovecs total taken file objects memory want hw call err hr =>
    have ⟨hf, ho⟩ := read_error hr
    have delivered : ChunksDelivered volume iovecs file objects memory := chunksDelivered_error hr
    rw [readChunks, if_neg hw]
    simp only [call, want] at hr hf ho
    simp only [hr, hf, ho, consumed_self, Nat.add_zero, failed]
    split
    case isTrue => exact accounts_ok.mpr ⟨le_rfl, iff_of_true rfl delivered⟩
    case isFalse ht =>
      split
      case isTrue =>
        rw [accounts_waits, not_not.mp ht]
        exact ⟨le_rfl, iff_of_true rfl delivered⟩
      case isFalse =>
        exact accounts_error (not_not.mp ht) (iff_of_true rfl delivered) le_rfl (iff_of_true ⟨rfl, rfl⟩ delivered)
  case case3 iovecs total taken file objects memory want hw call bytes hr hb =>
    cases List.isEmpty_iff.mp hb
    have ⟨_, hm⟩ := read_consumed (hu.mono (Nat.min_le_left ..)) (Nat.pos_of_ne_zero hw) hr
    rw [readChunks, if_neg hw, chunksDelivered_ok hw hr]
    simp only [call, want] at hr hm
    simp only [hr, hb, if_true]
    rw [accounts_ok]
    simp only [scatter_nil, and_true]
    refine ⟨by omega, ?_⟩
    constructor
    case mp =>
      intro h
      rw [Nat.add_right_cancel_iff, Nat.add_eq_left] at h
      exact ⟨hm.mp h, fun h => absurd (Nat.le_zero.mp h) hw⟩
    case mpr =>
      intro h
      rw [hm.mpr h.left, List.length_nil, Nat.add_zero]
  case case4 iovecs total taken file objects memory want hw call bytes hr hb copied memory' err hs =>
    have ⟨hc, _⟩ := read_consumed (hu.mono (Nat.min_le_left ..)) (Nat.pos_of_ne_zero hw) hr
    have short := (scatter_fst memory iovecs bytes).right.right (by simp [hs])
    have lost : ¬ChunksDelivered volume iovecs file objects memory := fun hd => by
      simpa [hs] using ((chunksDelivered_ok hw hr).mp hd).left.right
    rw [readChunks, if_neg hw]
    simp only [call, want, hs] at hr hc short
    simp only [hr, hb, hs, Bool.false_eq_true, if_false]
    split
    case isTrue =>
      rw [accounts_ok]
      exact ⟨by omega, iff_of_false (by omega) lost⟩
    case isFalse ht =>
      have taken_pos : consumed objects (read volume objects file (min (IoVec.totalLen iovecs) VECTORED_IO_CHUNK)).objects
          file (read volume objects file (min (IoVec.totalLen iovecs) VECTORED_IO_CHUNK)).file > 0 := by omega
      refine accounts_error ?_ (iff_of_false ?_ lost) (Nat.le_add_right ..) (iff_of_false ?_ lost)
      case refine_1 => omega
      case refine_2 => omega
      case refine_3 =>
        rintro ⟨hf, ho⟩
        rw [hf, ho, consumed_self] at taken_pos
        cases taken_pos
  case case5 iovecs total taken file objects memory want hw call bytes hr hb copied memory' hs hn =>
    have unsaturated := hu.mono (Nat.min_le_left _ VECTORED_IO_CHUNK)
    have ⟨hc, hm⟩ := read_consumed unsaturated (Nat.pos_of_ne_zero hw) hr
    have hl := read_length unsaturated hr
    have whole := (scatter_fst memory iovecs bytes).right.left (by simp [hs]) (by omega)
    rw [readChunks, if_neg hw, chunksDelivered_ok hw hr]
    simp only [call, want, hs] at hr hc hm whole hn
    subst whole
    simp only [hr, hb, hs, Bool.false_eq_true, if_false, if_pos hn]
    rw [accounts_ok]
    refine ⟨by omega, ?_⟩
    constructor
    case mp  => exact fun h => ⟨⟨hm.mp (by omega), trivial⟩, by omega⟩
    case mpr =>
      intro h
      have := hm.mpr h.left.left
      omega
  case case6 iovecs total taken file objects memory want hw call taken' bytes hr hb copied memory' hs hn hi =>
    have unsaturated := hu.mono (Nat.min_le_left _ VECTORED_IO_CHUNK)
    have ⟨hc, hm⟩ := read_consumed unsaturated (Nat.pos_of_ne_zero hw) hr
    have hl := read_length unsaturated hr
    have whole := (scatter_fst memory iovecs bytes).right.left (by simp [hs]) (by omega)
    simp only [hs] at whole
    have rest := hi (by rw [IoVec.totalLen_advance, whole]; exact hu.read (Nat.min_le_left ..) hr)
    rw [readChunks, if_neg hw, chunksDelivered_ok hw hr]
    simp only [call, want, taken'] at hr hc hm rest hn
    subst whole
    simp only [hr, hb, hs, Bool.false_eq_true, if_false, if_neg hn]
    have ge := rest.ge
    refine ⟨by omega, ?_, fun err he => ?_⟩
    case refine_1 =>
      constructor
      case mp  => exact fun h => ⟨⟨hm.mp (by omega), trivial⟩, fun _ _ => rest.eq.mp (by omega)⟩
      case mpr =>
        rintro ⟨⟨hf, -⟩, hd⟩
        have := hm.mpr hf
        have := rest.eq.mpr (hd (by omega) le_rfl)
        omega
    -- Something has been delivered, so the call cannot fail.
    case refine_2 =>
      have := (rest.error err he).left
      omega

-- A call waits when it has delivered nothing.
theorem readChunks_waits (volume : Volume δ) (n : Nat) (iovecs : List IoVec) (total taken : Nat)
    (file : FileDescriptor) (objects : Objects δ) (memory : UserMemory)
    (h : (readChunks volume iovecs total taken file objects memory).outcome = .waits n) : n = 0 := by
  revert h
  induction iovecs, total, taken, file, objects, memory using readChunks.induct volume
  case case1 hw =>
    rw [readChunks, if_pos hw]
    exact nofun
  case case2 want hw call err hr =>
    rw [readChunks, if_neg hw]
    simp only [call, want] at hr
    simp only [hr, failed]
    repeat' split
    all_goals rintro ⟨⟩
    rfl
  case case3 want hw call bytes hr hb =>
    rw [readChunks, if_neg hw]
    simp only [call, want] at hr
    simp only [hr, hb, if_true]
    exact nofun
  case case4 want hw call bytes hr hb copied memory' err hs =>
    rw [readChunks, if_neg hw]
    simp only [call, want] at hr
    simp only [hr, hb, hs, Bool.false_eq_true, if_false]
    exact nofun
  case case5 want hw call bytes hr hb copied memory' hs hn =>
    rw [readChunks, if_neg hw]
    simp only [call, want] at hr hn
    simp only [hr, hb, hs, Bool.false_eq_true, if_false, if_pos hn]
    exact nofun
  case case6 want hw call taken' bytes hr hb copied memory' hs hn hi =>
    rw [readChunks, if_neg hw]
    simp only [call, want] at hr hn
    simp only [hr, hb, hs, Bool.false_eq_true, if_false, if_neg hn]
    exact hi

theorem readChunks_unsaturated (volume : Volume δ) {m : Nat} (n : Nat) (iovecs : List IoVec) (total taken : Nat)
    (file : FileDescriptor) (objects : Objects δ) (memory : UserMemory) (hm : IoVec.totalLen iovecs ≤ m) (hu : file.Unsaturated m)
    (h : (readChunks volume iovecs total taken file objects memory).outcome = .returned (.ok n))
    (hn : total + IoVec.totalLen iovecs ≤ n) :
    (readChunks volume iovecs total taken file objects memory).file.Unsaturated (m - IoVec.totalLen iovecs) := by
  revert h
  induction iovecs, total, taken, file, objects, memory using readChunks.induct volume generalizing m
  case case1 hw =>
    rw [readChunks, if_pos hw]
    exact fun _ => hu.mono (Nat.sub_le ..)
  case case2 want hw call err hr =>
    have ⟨hf, _⟩ := read_error hr
    rw [readChunks, if_neg hw]
    simp only [call, want] at hr hf
    simp only [hr, hf]
    exact fun _ => hu.mono (Nat.sub_le ..)
  case case3 want hw call bytes hr hb =>
    have read := hu.read ((Nat.min_le_left _ VECTORED_IO_CHUNK).trans hm) hr
    rw [readChunks, if_neg hw]
    simp only [call, want] at hr
    simp only [hr, hb, if_true]
    cases List.isEmpty_iff.mp hb
    exact fun _ => read.mono (Nat.sub_le ..)
  case case4 iovecs _ _ _ _ memory want hw call bytes hr hb copied memory' err hs =>
    have unsaturated := hu.mono ((Nat.min_le_left _ VECTORED_IO_CHUNK).trans hm)
    have hl := read_length unsaturated hr
    have short := (scatter_fst memory iovecs bytes).right.right (by simp [hs])
    rw [readChunks, if_neg hw]
    simp only [call, want, hs] at hr short
    simp only [hr, hb, hs, Bool.false_eq_true, if_false]
    split
    case isTrue  => rintro ⟨⟩; omega
    case isFalse => exact nofun
  case case5 iovecs _ _ _ _ memory want hw call bytes hr hb copied memory' hs hn' =>
    have unsaturated := hu.mono ((Nat.min_le_left _ VECTORED_IO_CHUNK).trans hm)
    have hl := read_length unsaturated hr
    have whole := (scatter_fst memory iovecs bytes).left
    rw [readChunks, if_neg hw]
    simp only [call, want, hs] at hr hn' whole
    simp only [hr, hb, hs, Bool.false_eq_true, if_false, if_pos hn']
    rintro ⟨⟩
    omega
  case case6 iovecs _ _ _ _ memory want hw call taken' bytes hr hb copied memory' hs hn' hi =>
    have hl := read_length (hu.mono ((Nat.min_le_left _ VECTORED_IO_CHUNK).trans hm)) hr
    have read := hu.read ((Nat.min_le_left _ VECTORED_IO_CHUNK).trans hm) hr
    have whole := (scatter_fst memory iovecs bytes).left
    have advanced := IoVec.totalLen_advance copied iovecs
    rw [readChunks, if_neg hw]
    simp only [call, want, hs] at hr hn' whole
    simp only [hr, hb, hs, Bool.false_eq_true, if_false, if_neg hn']
    intro h
    exact (hi (by omega) read (by omega) h).mono (by omega)

-- The vectors of a batch have something to read.
theorem loadBatch_ok {iov max n index total next want : Nat} {iovecs : List IoVec} (ht : total ≤ max)
    (h : IoVec.loadBatch memory iov max n index total = .ok (iovecs, next, want)) :
    want = total + IoVec.totalLen iovecs ∧ want ≤ max ∧ (iovecs ≠ [] → 0 < IoVec.totalLen iovecs) := by
  induction n generalizing index total iovecs
  case zero =>
    cases h
    exact ⟨rfl, ht, fun h => absurd rfl h⟩
  case succ n hi =>
    simp only [IoVec.loadBatch] at h
    cases hv : IoVec.load memory (iov + 16 * index)
    case error => simp [hv, bind, Except.bind] at h
    case ok iovec =>
      simp only [hv, bind, Except.bind] at h
      split at h
      case isTrue => exact hi ht h
      case isFalse hl =>
        split at h
        case isTrue => cases h
        case isFalse hm =>
          split at h
          case isTrue =>
            cases h
            simp only [IoVec.totalLen, List.map_cons, List.map_nil, List.sum_cons, List.sum_nil]
            exact ⟨by omega, by omega, fun _ => by omega⟩
          case isFalse =>
            cases hb : IoVec.loadBatch memory iov max n (index + 1) (total + iovec.len)
            case error => simp [hb] at h
            case ok batch =>
              simp only [hb] at h
              cases h
              obtain ⟨he, hm, _⟩ := hi (Nat.not_lt.mp hm) hb
              simp only [IoVec.totalLen, List.map_cons, List.sum_cons] at he ⊢
              exact ⟨by omega, hm, fun _ => by omega⟩

-- The account of a batch, if what comes after keeps its own.
theorem readBatch_accounts {rest : Nat → Nat → FileDescriptor → Objects δ → UserMemory → UserCall δ}
    {restDelivered : Nat → FileDescriptor → Objects δ → UserMemory → Prop} {iovecs : List IoVec} {total taken : Nat}
    (hr : ∀ total taken file objects memory, file.Unsaturated (MAX_FILE_OFFSET - total) →
      Accounts (rest total taken file objects memory) file objects total taken (restDelivered total file objects memory))
    (hp : 0 < IoVec.totalLen iovecs) (hm : IoVec.totalLen iovecs ≤ MAX_FILE_OFFSET - total)
    (hu : file.Unsaturated (MAX_FILE_OFFSET - total)) :
    Accounts (readBatch volume rest iovecs (IoVec.totalLen iovecs) total taken file objects memory) file objects total
      taken (BatchDelivered volume restDelivered iovecs (IoVec.totalLen iovecs) total file objects memory) := by
  have batch := readChunks_accounts volume iovecs 0 0 file objects memory (hu.mono hm)
  have unsaturated := fun n => readChunks_unsaturated volume n iovecs 0 0 file objects memory hm hu
  have waits := fun n => readChunks_waits volume n iovecs 0 0 file objects memory
  simp only [readBatch, BatchDelivered]
  generalize readChunks volume iovecs 0 0 file objects memory = call at *
  have ⟨ge, eq, error⟩ := batch
  cases ho : call.outcome
  case returned result =>
    cases result
    case error err =>
      have ⟨_, unchanged⟩ := error err ho
      simp only [ho, UserCall.delivered, reduceCtorEq, Outcome.returned.injEq, false_imp_iff, implies_true, and_true,
        add_zero] at ge eq ⊢
      split
      case isTrue =>
        rw [accounts_ok]
        exact ⟨by omega, Iff.trans (by omega) eq⟩
      case isFalse ht =>
        refine accounts_error (not_not.mp ht) (Iff.trans ?_ eq) (Nat.le_add_right ..) unchanged
        omega
    case ok n =>
      simp only [ho, UserCall.delivered, Outcome.returned.injEq, Except.ok.injEq, forall_eq', zero_add, add_zero]
        at ge eq ⊢
      split
      case isTrue hn =>
        rw [accounts_ok]
        refine ⟨by omega, ?_⟩
        constructor
        case mp  => exact fun h => ⟨eq.mp (by omega), fun h => absurd hn (Nat.not_lt.mpr h)⟩
        case mpr =>
          intro h
          have := eq.mpr h.left
          omega
      case isFalse hn =>
        have next := unsaturated n ho (by omega)
        have ⟨ge', eq', error'⟩ := hr (total + n) (taken + call.taken) call.file call.objects call.memory
          (next.mono (by omega))
        refine ⟨by omega, ?_, fun err he => ?_⟩
        case refine_1 =>
          constructor
          case mp  => exact fun h => ⟨eq.mp (by omega), fun _ => eq'.mp (by omega)⟩
          case mpr =>
            rintro ⟨hl, hd⟩
            have := eq.mpr hl
            have := eq'.mpr (hd (Nat.not_lt.mp hn))
            omega
        case refine_2 =>
          have := (error' err he).left
          omega
  case waits n =>
    cases waits n ho
    simp only [ho, UserCall.delivered, reduceCtorEq, false_imp_iff, implies_true, and_true, add_zero] at ge eq ⊢
    rw [accounts_waits]
    exact ⟨by omega, Iff.trans (by omega) eq⟩

theorem readBatches_accounts {iov iovcnt n index : Nat} {total taken : Nat} {file : FileDescriptor}
    {objects : Objects δ} {memory : UserMemory} (hu : file.Unsaturated (MAX_FILE_OFFSET - total)) :
    Accounts (readBatches volume iov iovcnt n index total taken file objects memory) file objects total taken
      (BatchesDelivered volume iov iovcnt n index total file objects memory) := by
  induction n generalizing index total taken file objects memory
  case zero =>
    simp only [readBatches, BatchesDelivered]
    exact accounts_ok.mpr ⟨le_rfl, by simp⟩
  case succ n hi =>
    simp only [readBatches, BatchesDelivered]
    cases hb : IoVec.loadBatch memory iov (MAX_FILE_OFFSET - total) (iovcnt - index) index 0
    case error err =>
      simp only [reduceCtorEq, false_imp_iff, implies_true]
      split
      case isTrue  => exact accounts_ok.mpr ⟨le_rfl, by simp⟩
      case isFalse ht => exact accounts_error (not_not.mp ht) (by simp) le_rfl (by simp)
    case ok batch =>
      have ⟨iovecs, next, want⟩ := batch
      have ⟨he, hm, hp⟩ := loadBatch_ok (Nat.zero_le _) hb
      rw [zero_add] at he
      subst he
      dsimp only
      split
      case isTrue hv =>
        refine accounts_ok.mpr ⟨le_rfl, iff_of_true rfl ?_⟩
        rintro _ _ _ ⟨⟩ hn
        exact absurd (List.isEmpty_iff.mp hv) hn
      case isFalse hv =>
        have nonempty : iovecs ≠ [] := fun he => hv (List.isEmpty_iff.mpr he)
        have delivered : (∀ iovecs' next' want', Except.ok (iovecs, next, IoVec.totalLen iovecs) =
            (Except.ok (iovecs', next', want') : Except SysErrNo _) → iovecs' ≠ [] →
              BatchDelivered volume (BatchesDelivered volume iov iovcnt n next') iovecs' want' total file objects memory) ↔
            BatchDelivered volume (BatchesDelivered volume iov iovcnt n next) iovecs (IoVec.totalLen iovecs) total file
              objects memory := by
          constructor
          case mp  => exact fun h => h _ _ _ rfl nonempty
          case mpr => rintro h _ _ _ ⟨⟩ _; exact h
        rw [delivered]
        exact readBatch_accounts (fun _ _ _ _ _ hu => hi hu) (hp nonempty) hm hu

theorem Accounts.exact_iff {call : UserCall δ} {total : Nat} {delivered : Prop}
    (h : Accounts call file objects total 0 delivered) : call.Exact total file objects ↔ delivered := by
  have ⟨_, eq, error⟩ := h
  rw [zero_add] at eq
  constructor
  case mp  => exact fun h => eq.mp h.taken
  case mpr => exact fun hd => ⟨eq.mpr hd, fun err he => (error err he).right.mpr hd⟩

-- Where a `readv` goes on with a batch, whether it has just loaded it or has waited since.
theorem readBatch_exact_iff {from' : UserMemory} {iov iovcnt n index total next want : Nat} {iovecs : List IoVec}
    (hb : IoVec.loadBatch from' iov (MAX_FILE_OFFSET - total) (iovcnt - index) index 0 = .ok (iovecs, next, want))
    (hn : iovecs ≠ []) (hu : file.OffsetFits) :
    (readBatch volume (readBatches volume iov iovcnt n next) iovecs want total 0 file objects memory).Exact total file
        objects ↔
      BatchDelivered volume (BatchesDelivered volume iov iovcnt n next) iovecs want total file objects memory := by
  have ⟨he, hm, hp⟩ := loadBatch_ok (Nat.zero_le _) hb
  rw [zero_add] at he
  subst he
  exact (readBatch_accounts (fun _ _ _ _ _ hu => readBatches_accounts hu) (hp hn) hm
    (hu.unsaturated (Nat.sub_le ..))).exact_iff

theorem sysReadv_exact_iff {iov iovcnt : Nat} (hu : file.OffsetFits) :
    (sysReadv volume objects memory file iov iovcnt).Exact 0 file objects ↔
      ReadvDelivered volume objects memory file iov iovcnt := by
  simp only [sysReadv, ReadvDelivered]
  split
  case isTrue hc =>
    subst hc
    simp [BatchesDelivered]
  case isFalse =>
    split
    case isTrue hm => exact iff_of_true (by simp) fun h => absurd hm (Nat.not_lt.mpr h)
    case isFalse hm =>
      split
      case isTrue hi => exact iff_of_true (by simp) fun _ h => absurd hi h
      case isFalse hi =>
        rw [(readBatches_accounts (hu.unsaturated (Nat.sub_le ..))).exact_iff]
        exact ⟨fun h _ _ => h, fun h => h (Nat.not_lt.mp hm) hi⟩

end FileDescriptor

end Fs

end WllOs
