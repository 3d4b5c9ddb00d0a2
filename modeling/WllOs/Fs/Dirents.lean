import WllOs.Fs.Descriptor

namespace WllOs.Fs

def NAME_MAX : Nat := 255

namespace DirEntryRecord

variable (record : DirEntryRecord)

def nameBytes : List UInt8 :=
  record.name.toUTF8.toList

-- Names come from strings that end with a zero, and from directories of the volume.
structure Named : Prop where
  short : record.nameBytes.length ≤ NAME_MAX
  nonzero : ∀ byte ∈ record.nameBytes, byte ≠ 0

end DirEntryRecord

-- `list_dir`: what the memory files and the volume have in a directory, where they have it. An entry of a memory
-- directory hides that of the volume.
def listDir (memEntries : Option (List DirEntryRecord)) (extEntries : Option (Except SysErrNo (List DirEntryRecord)))
    (isFile : Bool) (isRemoved : String → Bool) : Except SysErrNo (List DirEntryRecord) :=
  if memEntries.isNone ∧ extEntries.isNone then .error (if isFile then .ENOTDIR else .ENOENT)
  else
    let map := (memEntries.getD []).foldl (fun map entry => map.insert entry.name entry)
      (∅ : Std.TreeMap String DirEntryRecord)
    match extEntries.getD (.ok []) with
    | .error err   => .error err
    | .ok children =>
      let map := children.foldl (fun map child =>
        if isRemoved child.name then map else map.insertIfNew child.name child) map
      .ok (map.toList.map (·.snd))

-- What a program reads in a record.
structure Dirent where
  ino : Nat
  isDir : Bool
  name : List UInt8
  deriving DecidableEq

namespace Dirent

def of (listed : Nat × DirEntryRecord) : Dirent where
  ino := listed.fst
  isDir := listed.snd.isDir
  name := listed.snd.nameBytes

-- The record at the start of some bytes and its length, if it is well formed: the length is a multiple of 8, and the
-- name ends with a zero that is in the record.
def decode (bytes : List UInt8) : Option (Dirent × Nat) :=
  let reclen := fromLeBytes ((bytes.drop 16).take 2)
  let tail := (bytes.take reclen).drop 19
  let name := tail.takeWhile (· ≠ 0)
  if reclen % 8 = 0 ∧ reclen ≤ bytes.length ∧ name.length < tail.length then
    match (bytes.drop 18).head? with
    | some 4 => some (⟨fromLeBytes (bytes.take 8), true, name⟩, reclen)
    | some 8 => some (⟨fromLeBytes (bytes.take 8), false, name⟩, reclen)
    | _      => none
  else none

theorem decode_pos {bytes : List UInt8} {record : Dirent} {reclen : Nat} (h : decode bytes = some (record, reclen)) :
    0 < reclen := by
  simp only [decode] at h
  split at h
  case isFalse => cases h
  case isTrue hw =>
    have hlen := hw.right.right
    simp only [List.length_drop, List.length_take] at hlen
    split at h <;> cases h <;> omega

-- The records one by one.
def decodeAll (bytes : List UInt8) : Option (List Dirent) :=
  if bytes = [] then some []
  else
    match _h : decode bytes with
    | none                  => none
    | some (record, reclen) => (decodeAll (bytes.drop reclen)).map (record :: ·)
termination_by bytes.length
decreasing_by
  have := decode_pos ‹decode bytes = some (record, reclen)›
  have := List.length_pos_iff.mpr ‹bytes ≠ []›
  simp only [List.length_drop]
  omega

end Dirent

-- What file systems promise of a listing. That of the volume comes from a map of the names.
structure WellListed (entries : List (Nat × DirEntryRecord)) : Prop where
  names : (entries.map fun listed => listed.snd.name).Nodup
  ino : ∀ listed ∈ entries, listed.fst < 256 ^ 8
  named : ∀ listed ∈ entries, listed.snd.Named

namespace FileDescriptor

variable {δ : Type} (volume : Volume δ) (objects : Objects δ)

-- What the descriptor of a directory takes for its entries. Those of a memory directory are from when it was opened.
def listing : FileDescriptor → Except SysErrNo (List (Nat × DirEntryRecord))
  | memDir dir  => .ok (numbered dir.entries)
  | ext4Dir dir => volume.listDir objects.store.disk dir.ino
  | _           => .error .ENOTDIR

def dirOffset : FileDescriptor → Nat
  | memDir dir  => dir.offset
  | ext4Dir dir => dir.offset
  | _           => 0

-- A directory that has just been opened.
def OpenedDir (file : FileDescriptor) : Prop :=
  (∃ memEntries extEntries isFile isRemoved entries, listDir memEntries extEntries isFile isRemoved = .ok entries ∧
    entries.length < 256 ^ 8 ∧ (∀ record ∈ entries, record.Named) ∧ file = .memDir ⟨entries, 0⟩) ∨
  ∃ ino, file = .ext4Dir ⟨ino, 0⟩

end FileDescriptor

-- A call of `getdents64`, and what there is when it is made.
structure DirentsCall (δ : Type) where
  objects : Objects δ
  count : Nat

-- A program that reads a directory: the listings that its calls have found, all that they have returned, the result of
-- the last one, and whether its buffer was too small for the next record.
structure DirReader where
  file : FileDescriptor
  listings : List (List (Nat × DirEntryRecord))
  bytes : List UInt8
  result : Option (Except SysErrNo (List UInt8))
  tooSmall : Bool

namespace DirReader

variable {δ : Type} (volume : Volume δ)

def start (file : FileDescriptor) : DirReader where
  file := file
  listings := []
  bytes := []
  result := none
  tooSmall := false

-- The next record fits into a buffer.
def Fits (entries : List (Nat × DirEntryRecord)) (offset count : Nat) : Prop :=
  (entries[offset]?.elim 0 fun next => (FileDescriptor.dirent next.fst (offset + 1) next.snd).length) ≤ count

instance (entries : List (Nat × DirEntryRecord)) (offset count : Nat) : Decidable (Fits entries offset count) :=
  inferInstanceAs (Decidable (_ ≤ _))

def getdents (reader : DirReader) (call : DirentsCall δ) : DirReader :=
  let (result, file) := reader.file.readDirents64 volume call.objects call.count
  let found := (reader.file.listing volume call.objects).toOption
  { file
    listings := reader.listings ++ found.toList
    bytes := reader.bytes ++ result.toOption.getD []
    result := some result
    tooSmall := found.any fun entries => ¬Fits entries reader.file.dirOffset call.count }

-- The states that calls of a kind lead to.
inductive Run (allowed : DirReader → DirentsCall δ → Prop) : DirReader → Prop
  | opened {file : FileDescriptor} : file.OpenedDir → Run allowed (start file)
  | getdents {reader : DirReader} {call : DirentsCall δ} :
      Run allowed reader → allowed reader call → Run allowed (reader.getdents volume call)

variable (reader : DirReader)

-- An entry that has been there at all calls.
def Throughout (listed : Nat × DirEntryRecord) : Prop :=
  ∀ entries ∈ reader.listings, listed ∈ entries

-- What the records that have been returned say about the directory.
structure Enumerates (records : List Dirent) : Prop where
  listed : ∀ record ∈ records, ∃ entries ∈ reader.listings, ∃ listed ∈ entries, record = .of listed
  once : ∀ listed, reader.Throughout listed → records.count (.of listed) ≤ 1
  all : reader.result = some (.ok []) → ∀ listed, reader.Throughout listed → records.count (.of listed) = 1
  unchanged : ∀ entries, (∀ found ∈ reader.listings, found = entries) → records <+: entries.map .of ∧
    (reader.result = some (.ok []) → records = entries.map .of)

-- What `getdents64` promises.
structure Exact : Prop where
  enumerates : ∃ records, Dirent.decodeAll reader.bytes = some records ∧ reader.Enumerates records
  small : reader.tooSmall → reader.result = some (.error .EINVAL)

-- The next record fits into the buffer, and what has been removed or created since the last call has moved no entry
-- over the position.
def Undisturbed (call : DirentsCall δ) : Prop :=
  ∀ entries, reader.file.listing volume call.objects = .ok entries →
    Fits entries reader.file.dirOffset call.count ∧
    ∀ old ∈ reader.listings.getLast?, ∀ listed ∈ old, listed ∈ entries →
      (listed ∈ old.take reader.file.dirOffset ↔ listed ∈ entries.take reader.file.dirOffset)

end DirReader

end WllOs.Fs
