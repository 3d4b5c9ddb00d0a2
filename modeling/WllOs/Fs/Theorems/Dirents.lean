import WllOs.Fs.Dirents
import WllOs.Fs.Theorems.Objects

namespace WllOs.Fs

-- The loop over the bytes of a string collects them.
theorem byteArray_loop (array : ByteArray) (i : Nat) (bytes : List UInt8) :
    ByteArray.toList.loop array i bytes = bytes.reverse ++ array.data.toList.drop i := by
  fun_induction ByteArray.toList.loop array i bytes
  case case1 i bytes h hi =>
    have hl : i < array.data.toList.length := by simpa using h
    rw [hi, List.drop_eq_getElem_cons hl, List.reverse_cons, List.append_assoc]
    simp [ByteArray.get!, getElem!_pos array.data i (by simpa using h)]
  case case2 i bytes h =>
    have hl : array.data.toList.length ≤ i := by simpa using h
    rw [List.drop_eq_nil_of_le hl, List.append_nil]

theorem byteArray_toList (array : ByteArray) : array.toList = array.data.toList := by
  rw [ByteArray.toList, byteArray_loop]
  simp

theorem toUTF8_injective {name name' : String} (h : name.toUTF8.toList = name'.toUTF8.toList) : name = name' := by
  rw [byteArray_toList, byteArray_toList] at h
  exact String.toByteArray_inj.mp (ByteArray.ext (Array.toList_inj.mp h))

namespace Dirent

variable {bytes bytes' : List UInt8} {record : Dirent} {records records' : List Dirent} {reclen : Nat}

theorem of_injective : Function.Injective of := by
  intro ⟨ino, name, isDir⟩ ⟨ino', name', isDir'⟩ h
  simp only [of, Dirent.mk.injEq, DirEntryRecord.nameBytes] at h
  rw [h.left, h.right.left, toUTF8_injective h.right.right]

-- A record that is read is the same when more bytes follow.
theorem decode_append (h : decode bytes = some (record, reclen)) :
    decode (bytes ++ bytes') = some (record, reclen) ∧ reclen ≤ bytes.length := by
  simp only [decode] at h
  split at h
  case isFalse => cases h
  case isTrue hw =>
    have hle := hw.right.left
    have hterm := hw.right.right
    simp only [List.length_drop, List.length_take] at hterm
    have hlen : 19 < bytes.length := by omega
    have hreclen : (((bytes ++ bytes').drop 16).take 2) = (bytes.drop 16).take 2 := by
      rw [List.drop_append_of_le_length (by omega), List.take_append_of_le_length (by simp; omega)]
    have hhead : ((bytes ++ bytes').drop 18).head? = (bytes.drop 18).head? := by
      rw [List.drop_append_of_le_length (by omega), List.head?_append_of_ne_nil]
      simp
      omega
    have hino : (bytes ++ bytes').take 8 = bytes.take 8 := List.take_append_of_le_length (by omega)
    have htake : (bytes ++ bytes').take (fromLeBytes ((bytes.drop 16).take 2)) =
        bytes.take (fromLeBytes ((bytes.drop 16).take 2)) := List.take_append_of_le_length hle
    simp only [decode, hreclen, hhead, hino, htake]
    rw [if_pos]
    · refine ⟨h, ?_⟩
      split at h <;> cases h <;> exact hle
    · exact ⟨hw.left, by simp; omega, hw.right.right⟩

theorem decode_nil : decode [] = none := by
  simp [decode, fromLeBytes]

theorem decodeAll_of_decode (h : decode bytes = some (record, reclen)) :
    decodeAll bytes = (decodeAll (bytes.drop reclen)).map (record :: ·) := by
  rw [decodeAll]
  split
  case isTrue he =>
    rw [he, decode_nil] at h
    cases h
  case isFalse =>
    split
    case h_1 hn => cases hn.symm.trans h
    case h_2 hs =>
      cases hs.symm.trans h
      rfl

theorem decodeAll_append (h : decodeAll bytes = some records) (h' : decodeAll bytes' = some records') :
    decodeAll (bytes ++ bytes') = some (records ++ records') := by
  fun_induction decodeAll bytes generalizing records
  case case1 =>
    cases h
    simpa using h'
  case case2 => cases h
  case case3 bytes hne record reclen hd hi =>
    have ⟨hd', hle⟩ := @decode_append _ bytes' _ _ hd
    have ⟨rest, hrest, he⟩ := Option.map_eq_some_iff.mp h
    rw [decodeAll_of_decode hd', List.drop_append_of_le_length hle, hi hrest, ← he]
    rfl

-- The record of an entry is read as the entry.
theorem decode_dirent {ino : Nat} (hi : ino < 256 ^ 8) (off : Nat) {entry : DirEntryRecord} (hn : entry.Named) :
    decode (FileDescriptor.dirent ino off entry) =
      some (of (ino, entry), (FileDescriptor.dirent ino off entry).length) := by
  have hshort := hn.short
  simp only [DirEntryRecord.nameBytes, NAME_MAX] at hshort
  generalize hname : entry.name.toUTF8.toList = name at hshort
  generalize hr : (name.length + 27) / 8 * 8 = reclen
  have hlen : name.length + 20 ≤ reclen ∧ reclen < 256 ^ 2 := by omega
  have he : FileDescriptor.dirent ino off entry = (leBytes 8 ino ++ leBytes 8 off) ++ (leBytes 2 reclen ++
      ([if entry.isDir then 4 else 8] ++ (name ++ List.replicate (reclen - (19 + name.length)) 0))) := by
    simp only [FileDescriptor.dirent, hname, hr, List.append_assoc, List.cons_append, List.nil_append]
  have hl : (FileDescriptor.dirent ino off entry).length = reclen := by
    rw [he]
    simp only [List.length_append, length_leBytes, List.length_singleton, List.length_replicate]
    omega
  have h16 : (FileDescriptor.dirent ino off entry).drop 16 = leBytes 2 reclen ++
      ([if entry.isDir then 4 else 8] ++ (name ++ List.replicate (reclen - (19 + name.length)) 0)) := by
    rw [he, List.drop_left' (by simp [length_leBytes])]
  have h18 : (FileDescriptor.dirent ino off entry).drop 18 =
      [if entry.isDir then 4 else 8] ++ (name ++ List.replicate (reclen - (19 + name.length)) 0) := by
    rw [show 18 = 16 + 2 from rfl, ← List.drop_drop, h16, List.drop_left' length_leBytes]
  have h19 : (FileDescriptor.dirent ino off entry).drop 19 = name ++ List.replicate (reclen - (19 + name.length)) 0 := by
    rw [show 19 = 18 + 1 from rfl, ← List.drop_drop, h18]
    rfl
  have hreclen : fromLeBytes (((FileDescriptor.dirent ino off entry).drop 16).take 2) = reclen := by
    rw [h16, List.take_left' length_leBytes, fromLeBytes_leBytes, Nat.mod_eq_of_lt hlen.right]
  have hino : fromLeBytes ((FileDescriptor.dirent ino off entry).take 8) = ino := by
    rw [he, List.append_assoc, List.take_left' length_leBytes, fromLeBytes_leBytes, Nat.mod_eq_of_lt hi]
  have hterm : (name ++ List.replicate (reclen - (19 + name.length)) (0 : UInt8)).takeWhile (· ≠ 0) = name := by
    rw [List.takeWhile_append_of_pos]
    · simp
    · subst hname
      simpa [DirEntryRecord.nameBytes] using hn.nonzero
  simp only [decode, hreclen, List.take_of_length_le (Nat.le_of_eq hl), h19, hterm, h18, hino]
  rw [if_pos ⟨by omega, Nat.le_of_eq hl.symm, by simp; omega⟩, hl, of, DirEntryRecord.nameBytes, hname]
  cases entry.isDir <;> rfl

end Dirent

section ListDir

variable {map : Std.TreeMap String DirEntryRecord} {record : DirEntryRecord}

-- Entries are found under their names.
def Keyed (map : Std.TreeMap String DirEntryRecord) : Prop :=
  ∀ (name : String) (record : DirEntryRecord), map[name]? = some record → record.name = name

theorem Keyed.insert (h : Keyed map) : Keyed (map.insert record.name record) := by
  intro name record' hs
  rw [Std.TreeMap.getElem?_insert] at hs
  split at hs
  case isTrue he =>
    cases hs
    exact Std.LawfulEqCmp.eq_of_compare he
  case isFalse => exact h name record' hs

theorem Keyed.insertIfNew (h : Keyed map) : Keyed (map.insertIfNew record.name record) := by
  intro name record' hs
  rw [Std.TreeMap.getElem?_insertIfNew] at hs
  split at hs
  case isTrue he =>
    cases hs
    exact Std.LawfulEqCmp.eq_of_compare he.left
  case isFalse => exact h name record' hs

theorem Keyed.nodup (h : Keyed map) : ((map.toList.map (·.snd)).map DirEntryRecord.name).Nodup := by
  have hk : (map.toList.map (·.snd)).map DirEntryRecord.name = map.keys := by
    rw [← Std.TreeMap.map_fst_toList_eq_keys, List.map_map]
    refine List.map_congr_left fun listed hm => ?_
    exact h _ _ (Std.TreeMap.mem_toList_iff_getElem?_eq_some.mp hm)
  rw [hk]
  refine Std.TreeMap.distinct_keys.imp fun hn he => hn ?_
  rw [he]
  exact Std.ReflCmp.compare_self

-- A directory has each of its names once.
theorem listDir_nodup {memEntries : Option (List DirEntryRecord)}
    {extEntries : Option (Except SysErrNo (List DirEntryRecord))} {isFile : Bool} {isRemoved : String → Bool}
    {entries : List DirEntryRecord} (h : listDir memEntries extEntries isFile isRemoved = .ok entries) :
    (entries.map DirEntryRecord.name).Nodup := by
  simp only [listDir] at h
  split at h
  case isTrue => cases h
  case isFalse =>
    have hmem : Keyed ((memEntries.getD []).foldl (fun map entry => map.insert entry.name entry) ∅) :=
      List.foldlRecOn _ _ (fun _ _ hs => by simp at hs) fun _ hk _ _ => hk.insert
    split at h
    case h_1 => cases h
    case h_2 children _ =>
      cases h
      refine Keyed.nodup (List.foldlRecOn _ _ hmem fun map hk child _ => ?_)
      split
      case isTrue => exact hk
      case isFalse => exact hk.insertIfNew

end ListDir

theorem wellListed_numbered {entries : List DirEntryRecord} (hn : (entries.map DirEntryRecord.name).Nodup)
    (hl : entries.length < 256 ^ 8) (hnamed : ∀ record ∈ entries, record.Named) :
    WellListed (FileDescriptor.numbered entries) where
  names := by
    have he : (FileDescriptor.numbered entries).map (fun listed => listed.snd.name) = entries.map DirEntryRecord.name := by
      rw [FileDescriptor.numbered, List.map_map]
      conv => rhs; rw [← List.zipIdx_map_fst 0 entries, List.map_map]
      rfl
    rw [he]
    exact hn
  ino listed hm := by
    have ⟨⟨record, index⟩, hi, he⟩ := List.mem_map.mp hm
    have := List.snd_lt_of_mem_zipIdx hi
    subst he
    dsimp only
    omega
  named listed hm := by
    have ⟨⟨record, index⟩, hi, he⟩ := List.mem_map.mp hm
    subst he
    exact hnamed record (List.fst_mem_of_mem_zipIdx hi)

theorem WellListed.nodup {entries : List (Nat × DirEntryRecord)} (h : WellListed entries) :
    (entries.map Dirent.of).Nodup :=
  (List.Nodup.of_map _ h.names).map Dirent.of_injective

theorem WellListed.nodup_take {entries : List (Nat × DirEntryRecord)} (h : WellListed entries) (n : Nat) :
    ((entries.take n).map Dirent.of).Nodup :=
  h.nodup.sublist ((List.take_sublist _ _).map _)

namespace FileDescriptor

variable {δ : Type} {volume : Volume δ} {objects : Objects δ} {file : FileDescriptor}
  {entries : List (Nat × DirEntryRecord)}

-- The records that are read are those of the entries from the position on, as many as fit.
theorem readDirents_spec (h : ∀ listed ∈ entries, listed.fst < 256 ^ 8 ∧ listed.snd.Named) (offset room : Nat) :
    ∃ n bytes, readDirents entries offset room = (offset + n, bytes) ∧
      Dirent.decodeAll bytes = some ((entries.take n).map .of) ∧
      (bytes = [] → (entries.head?.elim 0 fun next => (dirent next.fst (offset + 1) next.snd).length) ≤ room →
        entries = []) := by
  induction entries generalizing offset room
  case nil => exact ⟨0, [], rfl, by simp [Dirent.decodeAll], fun _ _ => rfl⟩
  case cons listed entries hi =>
    have ⟨⟨hino, hnamed⟩, h⟩ := List.forall_mem_cons.mp h
    have hdecode := Dirent.decode_dirent hino (offset + 1) hnamed
    have hpos := Dirent.decode_pos hdecode
    simp only [readDirents]
    split
    case isTrue hlarge =>
      refine ⟨0, [], rfl, by simp [Dirent.decodeAll], fun _ hfits => ?_⟩
      exact absurd hfits (Nat.not_le.mpr hlarge)
    case isFalse =>
      have ⟨n, bytes, he, hd, _⟩ := hi h (offset + 1) (room - (dirent listed.fst (offset + 1) listed.snd).length)
      rw [he]
      refine ⟨n + 1, _, by rw [Nat.add_right_comm, Nat.add_assoc], ?_, fun hnil => ?_⟩
      · rw [List.take_succ_cons, List.map_cons]
        refine @Dirent.decodeAll_append _ _ [_] _ ?_ hd
        rw [Dirent.decodeAll_of_decode hdecode, List.drop_length, Dirent.decodeAll, if_pos rfl]
        rfl
      · have hlen := congrArg List.length (List.append_eq_nil_iff.mp hnil).left
        exact absurd hlen (Nat.pos_iff_ne_zero.mp hpos)

-- What a call comes to that finds a listing.
theorem readDirents64_spec (hl : file.listing volume objects = .ok entries) (hw : WellListed entries) (count : Nat) :
    ∃ n bytes file', readDirents64 volume objects file count = (.ok bytes, file') ∧
      Dirent.decodeAll bytes = some (((entries.drop file.dirOffset).take n).map .of) ∧
      file'.dirOffset = file.dirOffset + n ∧
      (∀ objects', file'.listing volume objects' = file.listing volume objects') ∧
      (bytes = [] → DirReader.Fits entries file.dirOffset count → entries.length ≤ file.dirOffset) := by
  have hspec (offset : Nat) := @readDirents_spec (entries.drop offset)
    (fun listed hm => ⟨hw.ino listed (List.mem_of_mem_drop hm), hw.named listed (List.mem_of_mem_drop hm)⟩) offset count
  simp only [List.head?_drop, List.drop_eq_nil_iff] at hspec
  cases file
  case memDir dir =>
    cases hl
    have ⟨n, bytes, he, hd, hnil⟩ := hspec dir.offset
    refine ⟨n, bytes, .memDir { dir with offset := dir.offset + n }, ?_, hd, rfl, fun _ => rfl, hnil⟩
    rw [readDirents64, he]
  case ext4Dir dir =>
    have ⟨n, bytes, he, hd, hnil⟩ := hspec dir.offset
    have hl : volume.listDir objects.store.disk dir.ino = .ok entries := hl
    refine ⟨n, bytes, .ext4Dir { dir with offset := dir.offset + n }, ?_, hd, rfl, fun _ => rfl, hnil⟩
    rw [readDirents64, hl]
    dsimp only
    rw [he]
  all_goals cases hl

theorem readDirents64_unlisted {err : SysErrNo} (hl : file.listing volume objects = .error err) (count : Nat) :
    ∃ err, readDirents64 volume objects file count = (.error err, file) := by
  cases file
  case memDir => cases hl
  case ext4Dir dir =>
    have hl : volume.listDir objects.store.disk dir.ino = .error err := hl
    exact ⟨err, by rw [readDirents64, hl]⟩
  all_goals exact ⟨_, rfl⟩

end FileDescriptor

namespace DirReader

variable {δ : Type} {volume : Volume δ} {reader : DirReader} {call : DirentsCall δ}

-- What a reader has found that has met the last listing up to its position.
structure Passed (reader : DirReader) (records : List Dirent) (last : List (Nat × DirEntryRecord)) : Prop where
  found : reader.listings.getLast? = some last
  well : WellListed last
  count : ∀ listed, reader.Throughout listed →
    records.count (.of listed) = ((last.take reader.file.dirOffset).map Dirent.of).count (.of listed)
  unchanged : ∀ entries, (∀ found ∈ reader.listings, found = entries) →
    records = (entries.take reader.file.dirOffset).map .of
  all : reader.result = some (.ok []) → last.length ≤ reader.file.dirOffset

structure Inv (volume : Volume δ) (reader : DirReader) : Prop where
  well : ∀ objects entries, reader.file.listing volume objects = .ok entries → WellListed entries
  small : reader.tooSmall = false
  enumerates : ∃ records, Dirent.decodeAll reader.bytes = some records ∧
    (∀ record ∈ records, ∃ entries ∈ reader.listings, ∃ listed ∈ entries, record = .of listed) ∧
    ((reader.listings = [] ∧ records = [] ∧ reader.file.dirOffset = 0 ∧ reader.result ≠ some (.ok [])) ∨
      ∃ last, reader.Passed records last)

theorem Inv.exact (h : reader.Inv volume) : reader.Exact where
  enumerates := by
    have ⟨records, hd, hlisted, hpassed⟩ := h.enumerates
    refine ⟨records, hd, ?_⟩
    cases hpassed
    case inl hfresh =>
      have ⟨_, hrecords, _, hresult⟩ := hfresh
      subst hrecords
      exact ⟨hlisted, by simp, fun hr => absurd hr hresult, fun _ _ => ⟨by simp, fun hr => absurd hr hresult⟩⟩
    case inr hpassed =>
      have ⟨last, hlast, hw, hcount, hunchanged, hall⟩ := hpassed
      have hmem := List.mem_of_getLast? hlast
      refine ⟨hlisted, fun listed ht => ?_, fun hr listed ht => ?_, fun entries he => ?_⟩
      · rw [hcount listed ht]
        exact List.nodup_iff_count_le_one.mp (hw.nodup_take _) _
      · rw [hcount listed ht, List.take_of_length_le (hall hr)]
        exact List.count_eq_one_of_mem hw.nodup (List.mem_map_of_mem (ht last hmem))
      · rw [hunchanged entries he]
        refine ⟨(List.take_prefix _ _).map _, fun hr => ?_⟩
        have hle := hall hr
        rw [he last hmem] at hle
        rw [List.take_of_length_le hle]
  small hs := by simp [h.small] at hs

theorem Passed.steady {records : List Dirent} {last entries : List (Nat × DirEntryRecord)}
    (h : reader.Passed records last) (hw : WellListed entries) {listed : Nat × DirEntryRecord}
    (ht : reader.Throughout listed)
    (hs : listed ∈ last.take reader.file.dirOffset ↔ listed ∈ entries.take reader.file.dirOffset) :
    records.count (.of listed) = ((entries.take reader.file.dirOffset).map Dirent.of).count (.of listed) := by
  rw [h.count listed ht, (h.well.nodup_take _).count, (hw.nodup_take _).count]
  refine if_congr ?_ rfl rfl
  rw [List.mem_map_of_injective Dirent.of_injective, List.mem_map_of_injective Dirent.of_injective, hs]

-- A call takes the reader from the entries before one position to those before the next.
theorem Inv.getdents (h : reader.Inv volume) (hu : reader.Undisturbed volume call) :
    (reader.getdents volume call).Inv volume := by
  have ⟨records, hd, hlisted, hpassed⟩ := h.enumerates
  cases hl : reader.file.listing volume call.objects
  case error err =>
    have ⟨err, he⟩ := FileDescriptor.readDirents64_unlisted hl call.count
    simp only [DirReader.getdents, he, hl, Except.toOption, Option.toList_none, List.append_nil, Option.getD_none,
      Option.any_none]
    refine ⟨h.well, rfl, records, hd, hlisted, ?_⟩
    cases hpassed
    case inl hfresh => exact .inl ⟨hfresh.left, hfresh.right.left, hfresh.right.right.left, by simp⟩
    case inr hpassed =>
      have ⟨last, hlast, hw, hcount, hunchanged, _⟩ := hpassed
      exact .inr ⟨last, hlast, hw, hcount, hunchanged, by simp⟩
  case ok entries =>
    have hw := h.well _ _ hl
    have ⟨n, bytes, file', he, hread, hoffset, hsame, hend⟩ := FileDescriptor.readDirents64_spec hl hw call.count
    have ⟨hfits, hsteady⟩ := hu entries hl
    simp only [DirReader.getdents, he, hl, Except.toOption, Option.toList_some, Option.getD_some, Option.any_some]
    refine ⟨fun objects found hf => h.well objects found (hsame objects ▸ hf), by simp [hfits], _,
      Dirent.decodeAll_append hd hread, ?_, .inr ⟨entries, ?_, hw, fun listed ht => ?_, fun found hf => ?_, fun hr => ?_⟩⟩
    · intro record hm
      cases List.mem_append.mp hm
      case inl hm =>
        have ⟨found, hf, hlisted⟩ := hlisted record hm
        exact ⟨found, List.mem_append_left _ hf, hlisted⟩
      case inr hm =>
        have ⟨listed, hm, he⟩ := List.mem_map.mp hm
        exact ⟨entries, by simp, listed, List.mem_of_mem_drop (List.mem_of_mem_take hm), he.symm⟩
    · simp
    · have hthroughout : reader.Throughout listed := fun found hf => ht found (List.mem_append_left _ hf)
      have hprev : records.count (.of listed) =
          ((entries.take reader.file.dirOffset).map Dirent.of).count (.of listed) := by
        cases hpassed
        case inl hfresh =>
          have ⟨_, hrecords, hzero, _⟩ := hfresh
          simp [hrecords, hzero]
        case inr hpassed =>
          have ⟨last, hpassed⟩ := hpassed
          have hmem := hthroughout last (List.mem_of_getLast? hpassed.found)
          exact hpassed.steady hw hthroughout (hsteady last hpassed.found listed hmem (ht entries (by simp)))
      rw [List.count_append, hprev, hoffset, List.take_add, List.map_append, List.count_append]
    · have hprev : records = (found.take reader.file.dirOffset).map .of := by
        cases hpassed
        case inl hfresh =>
          have ⟨_, hrecords, hzero, _⟩ := hfresh
          simp [hrecords, hzero]
        case inr hpassed =>
          have ⟨last, hpassed⟩ := hpassed
          exact hpassed.unchanged found fun old ho => hf old (List.mem_append_left _ ho)
      rw [hoffset, List.take_add, List.map_append, ← hprev, hf entries (by simp)]
    · have hb : bytes = [] := by simpa using hr
      rw [hoffset]
      exact Nat.le_add_right_of_le (hend hb hfits)

theorem OpenedDir.inv (hv : ∀ disk ino entries, volume.listDir disk ino = .ok entries → WellListed entries)
    {file : FileDescriptor} (h : file.OpenedDir) : (start file).Inv volume := by
  have hnone : Dirent.decodeAll [] = some [] := by simp [Dirent.decodeAll]
  cases h
  case inl h =>
    have ⟨_, _, _, _, entries, hl, hlen, hnamed, he⟩ := h
    subst he
    refine ⟨fun _ _ hf => ?_, rfl, [], hnone, nofun, .inl ⟨rfl, rfl, rfl, nofun⟩⟩
    cases hf
    exact wellListed_numbered (listDir_nodup hl) hlen hnamed
  case inr h =>
    have ⟨ino, he⟩ := h
    subst he
    exact ⟨fun objects entries hf => hv objects.store.disk ino entries hf, rfl, [], hnone, nofun,
      .inl ⟨rfl, rfl, rfl, nofun⟩⟩

-- A directory is read as it is when the buffers have room, and when no change moves its entries over the position.
theorem getdents_exact (hv : ∀ disk ino entries, volume.listDir disk ino = .ok entries → WellListed entries)
    (hr : Run volume (Undisturbed volume) reader) : reader.Exact := by
  suffices hi : reader.Inv volume from hi.exact
  induction hr
  case opened ho => exact OpenedDir.inv hv ho
  case getdents hu hi => exact hi.getdents hu

-- A volume with one directory.
def listVolume : Volume { entries : List (Nat × DirEntryRecord) // WellListed entries } where
  readAt _ _ _ _ := .error .ENOENT
  writeAt disk _ _ _ := (.error .ENOENT, disk)
  fileSize _ _ := .error .ENOENT
  listDir disk _ := .ok disk.val
  loopReadAt _ _ _ _ := .error .ENODEV
  loopWriteAt store _ _ _ := (.error .ENODEV, store)
  loopSize _ _ := .error .ENODEV
  length_readAt := nofun
  length_loopReadAt := nofun

def fileA : Nat × DirEntryRecord := (12, ⟨"a", false⟩)

def fileB : Nat × DirEntryRecord := (13, ⟨"b", false⟩)

theorem fileA_named : fileA.snd.Named where
  short := by decide_cbv
  nonzero := by
    have h : fileA.snd.nameBytes = [97] := by decide_cbv
    intro byte hm
    rw [h, List.mem_singleton] at hm
    subst hm
    decide

theorem fileB_named : fileB.snd.Named where
  short := by decide_cbv
  nonzero := by
    have h : fileB.snd.nameBytes = [98] := by decide_cbv
    intro byte hm
    rw [h, List.mem_singleton] at hm
    subst hm
    decide

def both : { entries : List (Nat × DirEntryRecord) // WellListed entries } :=
  ⟨[fileA, fileB], by decide_cbv, by decide_cbv, by simp [fileA_named, fileB_named]⟩

def onlyB : { entries : List (Nat × DirEntryRecord) // WellListed entries } :=
  ⟨[fileB], by decide_cbv, by decide_cbv, by simp [fileB_named]⟩

-- The first entry has been read.
def readA : DirReader :=
  (start (.ext4Dir ⟨2, 0⟩)).getdents listVolume ⟨.init both, 24⟩

theorem listVolume_well (disk : { entries : List (Nat × DirEntryRecord) // WellListed entries }) (ino : Nat)
    (entries : List (Nat × DirEntryRecord)) (h : listVolume.listDir disk ino = .ok entries) : WellListed entries := by
  cases h
  exact disk.property

theorem readA_run (allowed : DirReader → DirentsCall _ → Prop)
    (h : allowed (start (.ext4Dir ⟨2, 0⟩)) ⟨.init both, 24⟩) : Run listVolume allowed readA :=
  .getdents (.opened (.inr ⟨2, rfl⟩)) h

theorem getdents_exact_ab : (readA.getdents listVolume ⟨.init both, 24⟩).Exact := by
  refine getdents_exact listVolume_well (.getdents (readA_run _ ?_) ?_)
  · intro entries h
    cases h
    exact ⟨by decide_cbv, nofun⟩
  · intro entries h
    cases h
    refine ⟨by decide_cbv, fun old ho listed _ _ => ?_⟩
    have hl : readA.listings = [[fileA, fileB]] := rfl
    rw [hl] at ho
    cases ho
    exact Iff.rfl

-- When the first entry is removed after it has been read, the second is not read.
theorem getdents_skips : ¬∀ reader : DirReader, Run listVolume (fun _ _ => True) reader → reader.Exact := by
  intro h
  have hrun : Run listVolume (fun _ _ => True) (readA.getdents listVolume ⟨.init onlyB, 24⟩) :=
    .getdents (readA_run _ trivial) trivial
  have ⟨records, hd, he⟩ := (h _ hrun).enumerates
  have hbytes : (readA.getdents listVolume ⟨.init onlyB, 24⟩).bytes = FileDescriptor.dirent 12 1 fileA.snd := by
    decide_cbv
  have hdecode := Dirent.decode_dirent (show 12 < 256 ^ 8 by decide) 1 fileA_named
  rw [hbytes, Dirent.decodeAll_of_decode hdecode, List.drop_length] at hd
  have hall := he.all (by decide_cbv) fileB fun entries hm => ?_
  · have hrecords : records = [Dirent.of (12, fileA.snd)] := by
      simpa [Dirent.decodeAll, eq_comm] using hd
    rw [hrecords] at hall
    revert hall
    decide_cbv
  · have hl : (readA.getdents listVolume ⟨.init onlyB, 24⟩).listings = [[fileA, fileB], [fileB]] := rfl
    rw [hl] at hm
    simp only [List.mem_cons, List.not_mem_nil, or_false] at hm
    cases hm
    case inl he => simp [he]
    case inr he => simp [he]

end DirReader

end WllOs.Fs
