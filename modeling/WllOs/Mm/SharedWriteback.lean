import WllOs.Fs.Descriptor
import WllOs.Mm.World
import WllOs.Mm.Syscall

namespace WllOs

open Fs ( MAX_FILE_OFFSET)

-- A regular file of the ext4 volume, of which a write takes frames for the page cache. `Sound` are the files whose
-- cache entry goes with the disk.
structure VolumeFile (δ : Type) where
  size : δ → Nat
  byte : δ → Nat → UInt8
  write : (frames : Nat) → δ → (offset : Nat) → List UInt8 → Except SysErrNo Nat × δ
  Sound : δ → Prop
  within : ∀ {file offset data} (frames), Sound file → offset + data.length ≤ size file →
    Sound (write frames file offset data).snd ∧ size (write frames file offset data).snd = size file ∧
      ∀ pos, byte (write frames file offset data).snd pos ≠ byte file pos →
        offset ≤ pos ∧ data[pos - offset]? = some (byte (write frames file offset data).snd pos)
  complete : ∀ {file offset data}, Sound file → data ≠ [] → offset + data.length ≤ MAX_FILE_OFFSET →
    ∃ frames file', write frames file offset data = (.ok data.length, file') ∧
      size file' = max (size file) (offset + data.length)

-- The memory files `/dev/null` and `/dev/zero` take all that is written.
inductive StoredFile (δ : Type)
  | device
  | memory (content : MemFileContent)
  | volume (file : δ)

-- What the files hold, and which of them loop devices stand for.
structure FileStore (δ : Type) where
  files : FileDescriptor.Identity → Option (StoredFile δ)
  loopBacking : Nat → Option FileDescriptor.Identity

-- What goes on beside a writeback: the frames that the page cache gets, and what comes of synchronizing a file, by the
-- number of address spaces and of pages that are still to be written back.
structure WritebackEnv (δ : Type) where
  frames : (spaces pages : Nat) → FileStore δ → FileWrite → Nat
  sync : (spaces : Nat) → FileDescriptor → Except SysErrNo Unit

-- Whether an area maps the given file, if there is one.
def MapArea.mapsTarget (area : MapArea) (target : Option FileDescriptor) : Bool :=
  match area.backing with
  | .file file _ _ => target.all file.sameFileIdentity
  | _              => false

def collectSharedFileWritesFor (ms : MemorySet) (mem : Ppn → Page) (start stop : Nat)
    (target : Option FileDescriptor) : List FileWrite :=
  (ms.areas.filter (·.mapsTarget target)).flatMap (areaFileWrites mem start stop)

namespace StoredFile

variable {δ : Type} (files : VolumeFile δ)

def length : StoredFile δ → Nat
  | device         => 0
  | memory content => content.len
  | volume file    => files.size file

def byte : StoredFile δ → Nat → UInt8
  | device,         _   => 0
  | memory content, pos => content.toVec.getD pos 0
  | volume file,    pos => files.byte file pos

def isDevice : StoredFile δ → Bool
  | device => true
  | _      => false

end StoredFile

namespace FileStore

open Function (update)

variable {δ : Type} (files : VolumeFile δ) (env : WritebackEnv δ) (store : FileStore δ)

-- The file that a descriptor writes to.
def target : FileDescriptor.Identity → Option FileDescriptor.Identity
  | .handle (.other id _ _) => store.loopBacking id
  | .handle _ | .path _     => none
  | id                      => some id

-- `FileDescriptor::write_at`. A write to a memory file always goes through.
def writeAt (frames : Nat) (file : FileDescriptor) (offset : Nat) (data : List UInt8) :
    Except SysErrNo Nat × FileStore δ :=
  if !file.isWritable then
    (.error .EBADF, store)
  else
    match store.target file.identity with
    | none    => (.error SysErrNo.ENXIO, store)
    | some id =>
      match store.files id with
      | none         => (.error .ENOENT, store)
      | some .device => (.ok data.length, store)
      | some (.memory content) =>
        if offset + data.length > MAX_FILE_OFFSET then
          (.error .EFBIG, store)
        else
          let content := (content.writeAt offset data).elim content Prod.snd
          (.ok data.length, { store with files := update store.files id (some (.memory content)) })
      | some (.volume regular) =>
        if offset + data.length > MAX_FILE_OFFSET then
          (.error .EFBIG, store)
        else
          let (result, regular) := files.write frames regular offset data
          (result, { store with files := update store.files id (some (.volume regular)) })

-- The first loop of `write_back_shared_files`, with what the files hold after each of its writes.
def writeFiles (spaces : Nat) (store : FileStore δ) :
    List FileWrite → List FileDescriptor → Except SysErrNo (List FileDescriptor) × List (FileStore δ)
  | [], dirtyFiles => (.ok dirtyFiles, [])
  | (file, offset, data) :: writes, dirtyFiles =>
    if data.isEmpty then
      writeFiles spaces store writes dirtyFiles
    else
      match store.writeAt files (env.frames spaces writes.length store (file, offset, data)) file offset data with
      | (.error error, store) => (.error error, [store])
      | (.ok written, store)  =>
        if written ≠ data.length then
          (.error SysErrNo.EIO, [store])
        else
          let (result, stores) := writeFiles spaces store writes
            (if dirtyFiles.any (·.sameFileIdentity file) then dirtyFiles else dirtyFiles ++ [file])
          (result, store :: stores)

-- Synchronizing a file does not change what it holds.
def writeBackSharedFiles (spaces : Nat) (writes : List FileWrite) : Except SysErrNo Unit × List (FileStore δ) :=
  match writeFiles files env spaces store writes [] with
  | (.error error, stores)   => (.error error, stores)
  | (.ok dirtyFiles, stores) => (dirtyFiles.forM (env.sync spaces), stores)

-- The address spaces one after the other, as far as no writeback fails.
def writeBackSpaces (store : FileStore δ) : List (List FileWrite) → Except SysErrNo Unit × List (FileStore δ)
  | []               => (.ok (), [])
  | writes :: spaces =>
    match store.writeBackSharedFiles files env spaces.length writes with
    | (.error error, stores) => (.error error, stores)
    | (.ok (), stores)       =>
      let (result, stores') := writeBackSpaces (stores.getLastD store) spaces
      (result, stores ++ stores')

end FileStore

-- The part of an address space that is written back, of the given file if there is one.
structure WritebackRegion where
  ms : MemorySet
  start : Nat
  stop : Nat
  target : Option FileDescriptor

-- The calls that write back shared mappings: of a range of the address space of the caller for `msync`, `munmap`,
-- `mmap` and `shmat`, of the pages of one file in all address spaces for `fsync` and `fdatasync`, and of all of them
-- for `sync`.
inductive WritebackCall
  | range (index start stop : Nat)
  | mappingsForFile (file : FileDescriptor)
  | allMappings

namespace WritebackCall

variable (w : World)

def regions : WritebackCall → List WritebackRegion
  | range index start stop => w.spaces[index]?.toList.map (⟨·, start, stop, none⟩)
  | mappingsForFile file   => w.spaces.map (⟨·, 0, highMmapArena.stop, some file⟩)
  | allMappings            => w.spaces.map (⟨·, 0, highMmapArena.stop, none⟩)

def writes (call : WritebackCall) : List (List FileWrite) :=
  (call.regions w).map fun region =>
    collectSharedFileWritesFor region.ms w.mem region.start region.stop region.target

end WritebackCall

-- A byte of a page that a shared mapping lets be written, at the position of the file that the mapping gives it.
def WritebackRegion.Maps (region : WritebackRegion) (file : FileDescriptor.Identity) (pos : Nat) (frame : Ppn)
    (off : Nat) : Prop :=
  ∃ va view page offset, region.start ≤ va ∧ va < region.stop ∧ Views region.ms.areas (va / pageSize) view ∧
    view.flags.w ∧ view.backing = .file file offset true ∧ view.page = some page ∧
    page.frame = frame ∧ va % pageSize = off ∧ offset + off = pos

-- The part within a range of a resident page of a shared mapping, and where it lies in the file.
structure SharedPage where
  file : FileDescriptor
  position : Nat
  length : Nat
  frame : Ppn
  off : Nat
  deriving DecidableEq

def MapArea.sharedPages (area : MapArea) (start stop : Nat) (target : Option FileDescriptor) : List SharedPage :=
  match area.backing with
  | .file file offset true =>
    if area.flags.w && target.all file.sameFileIdentity then
      (List.range area.pageCount).filterMap fun index => (area.resident.lookup index).bind fun page =>
        let pageStart := area.startVa + index * pageSize
        let lower := max start pageStart
        let upper := min stop (pageStart + pageSize)
        if lower < upper then
          some ⟨file, offset + (lower - area.startVa), upper - lower, page.frame, lower - pageStart⟩
        else
          none
    else
      []
  | _ => []

def WritebackRegion.sharedPages (region : WritebackRegion) : List SharedPage :=
  region.ms.areas.flatMap (·.sharedPages region.start region.stop region.target)

def WritebackCall.sharedPages (w : World) (call : WritebackCall) : List SharedPage :=
  (call.regions w).flatMap (·.sharedPages)

namespace FileStore

variable {δ : Type} (files : VolumeFile δ) (store : FileStore δ)

def length (id : FileDescriptor.Identity) : Nat :=
  (store.files id).elim 0 (·.length files)

def byte (id : FileDescriptor.Identity) (pos : Nat) : UInt8 :=
  (store.files id).elim 0 (·.byte files pos)

-- The file that a page is written to, if there is one.
def stored (page : SharedPage) : Option (StoredFile δ) :=
  (store.target page.file.identity).bind store.files

-- The file of a page lets be written at the position of the page.
def Takes (page : SharedPage) : Bool :=
  page.file.isWritable && (store.stored page).any fun file =>
    file.isDevice || page.position + page.length ≤ MAX_FILE_OFFSET

-- The page does not reach beyond the end of its file.
def Fits (page : SharedPage) : Prop :=
  ∀ file, store.stored page = some file → ¬file.isDevice → page.position + page.length ≤ file.length files

-- What a writeback may have done to files: it has changed bytes only before the end of a file, and only to what a
-- shared mapping of the file has there.
structure Confined (w : World) (call : WritebackCall) (store' : FileStore δ) : Prop where
  length : ∀ id, store'.length files id = store.length files id
  bytes : ∀ id pos, store'.byte files id pos ≠ store.byte files id pos →
    pos < store.length files id ∧ ∃ region ∈ call.regions w, ∃ file frame off, store.target file = some id ∧
      region.Maps file pos frame off.val ∧ store'.byte files id pos = w.mem frame off

end FileStore

end WllOs
