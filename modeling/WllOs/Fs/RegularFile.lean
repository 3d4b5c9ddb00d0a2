import WllOs.Fs.PageCache

namespace WllOs.Fs

open Buffer
open SysErrNo ( EIO)

@[irreducible]
def ASYNC_WRITEBACK_MIN_FILE : Nat := 256 * 1024

-- The page of the clean page cache that is filled from the disk.
def DiskFile.fillCleanPageFrame (disk : DiskFile) (index : Nat) : Except SysErrNo Page :=
  let start := index * pageSize
  if start ≥ disk.size then .ok Page.zero
  else
    let readLen := min pageSize (disk.size - start)
    match if index ≤ 2 ^ 32 - 1 then disk.blocks[index]?.join else none with
    | some block => .ok fun off => if off < readLen then block off else 0
    | none       =>
      match disk.extentAwareReadAt start readLen with
      | .error err => .error err
      | .ok bytes  => if bytes.isEmpty then .error EIO else .ok fun off => bytes.getD off 0

def CachedRegularFile.scheduleWriteback (cached : CachedRegularFile) : CachedRegularFile :=
  if cached.isDirty ∧ ¬cached.dirty.writebackActive ∧ cached.size ≥ ASYNC_WRITEBACK_MIN_FILE then
    { cached with dirty := cached.dirty.noteQueued }
  else cached

-- A regular file: what the disk has of it, its entry in the cache of whole files, and its clean pages. An entry that is
-- evicted has left the cache when the call returns.
structure RegularFile where
  disk : DiskFile
  cached : Option CachedRegularFile
  clean : Nat → Option Page

namespace RegularFile

variable (file : RegularFile)

def regularFileSize : Nat :=
  file.cached.elim file.disk.size CachedRegularFile.size

-- The frame of a clean page. `alloc` tells for which pages there is a frame left.
def cleanPageCacheFrame (alloc : Nat → Bool) (index : Nat) : Except SysErrNo Page × RegularFile :=
  match file.clean index with
  | some page => (.ok page, file)
  | none      =>
    match if alloc index then file.disk.fillCleanPageFrame index else .error .ENOMEM with
    | .error err => (.error err, file)
    | .ok page   => (.ok page, { file with clean := Function.update file.clean index (some page) })

-- The loop of `clean_page_cached_read`.
def copyCleanPages (alloc : Nat → Bool) (file : RegularFile) (current len : Nat) :
    Except SysErrNo (List UInt8) × RegularFile :=
  if len = 0 then (.ok [], file)
  else
    let count := min len (pageSize - current % pageSize)
    match file.cleanPageCacheFrame alloc (current / pageSize) with
    | (.error err, file) => (.error err, file)
    | (.ok page, file)   =>
      let bytes := (List.range count).map fun i => pageByte page (current + i)
      let (rest, file) := copyCleanPages alloc file (current + count) (len - count)
      (rest.map (bytes ++ ·), file)
termination_by len
decreasing_by
  have := Nat.mod_lt current pageSize_pos
  omega

def cleanPageCachedRead (alloc : Nat → Bool) (offset len : Nat) : Except SysErrNo (List UInt8) × RegularFile :=
  if len = 0 ∨ offset ≥ file.disk.size then (.ok [], file)
  else file.copyCleanPages alloc offset (min len (file.disk.size - offset))

-- `ext4_read_at`
def read (alloc : Nat → Bool) (offset len : Nat) : Except SysErrNo (List UInt8) × RegularFile :=
  match file.cached with
  | some cached =>
    if offset ≥ cached.size then (.ok [], file)
    else (cached.copyCachedRange file.disk offset (min len (cached.size - offset)), file)
  | none        =>
    match file.cleanPageCachedRead alloc offset len with
    | (.error .ENOMEM, file) => (file.disk.extentAwareReadAt offset len, file)
    | (.error .EINVAL, file) => (file.disk.extentAwareReadAt offset len, file)
    | result                 => result

def invalidateCleanPages : RegularFile :=
  { file with clean _ := none }

def invalidateCleanPagesRange (start stop : Nat) : RegularFile :=
  if start ≥ stop then file
  else { file with clean index := if start / pageSize ≤ index ∧ index ≤ (stop - 1) / pageSize then none
                                  else file.clean index }

-- A small file is read as a whole.
def ensureRegularCache : Except SysErrNo CachedRegularFile :=
  match file.cached with
  | some cached => .ok cached
  | none        =>
    let size := file.disk.size
    if size ≤ DENSE_REGULAR_CACHE_LIMIT then
      match file.disk.extentAwareReadAt 0 size with
      | .error err => .error err
      | .ok bytes  => if bytes.length < size then .error EIO else .ok (.new size size (some bytes) .clean)
    else .ok (.new size size none .clean)

-- `ext4_write_at`
def write (frames offset : Nat) (buf : List UInt8) : Except SysErrNo Nat × RegularFile :=
  if offset + buf.length > MAX_FILE_OFFSET then (.error .EFBIG, file)
  else if buf.isEmpty then (.ok 0, file)
  else
    match file.ensureRegularCache with
    | .error err => (.error err, file)
    | .ok cached =>
      let file := file.invalidateCleanPagesRange offset (offset + buf.length)
      match cached.cachedRegularWrite file.disk frames offset buf with
      | (.error err, cached) => (.error err, { file with cached := some cached })
      | (.ok n, cached)      => (.ok n, { file with cached := some cached.scheduleWriteback })

-- `truncate_regular_ino`
def truncate (frames newLen : Nat) : Except SysErrNo Unit × RegularFile :=
  if newLen > MAX_FILE_OFFSET then (.error .EFBIG, file)
  else
    let file := file.invalidateCleanPages
    match file.cached with
    | some cached =>
      match cached.cachedRegularResize frames newLen with
      | (.error err, cached) => (.error err, { file with cached := some cached })
      | (.ok (), cached)     => (.ok (), { file with cached := some cached.scheduleWriteback })
    | none        =>
      if newLen < file.disk.size then
        let disk := file.disk.truncateInode newLen
        (.ok (), { file with disk, cached := if newLen = 0 then some (.new 0 0 (some []) .dirtyWholeFile) else none })
      else if newLen > file.disk.size then (.ok (), { file with disk.size := newLen })
      else (.ok (), file)

-- The loop of `flush_cached_ino`. There is an outcome for every time round.
def flush (file : RegularFile) : List DiskOutcome → Option (Except SysErrNo Unit × RegularFile)
  | []                  => none
  | outcome :: outcomes =>
    match file.cached with
    | none        => some (.ok (), file)
    | some cached =>
      match cached.takeWritebackSnapshot file.disk with
      | (.noCache, cached)           => some (.ok (), { file with cached := some cached })
      | (.clean, cached)             => some (.ok (), { file with cached := some cached })
      | (.busy, cached)              => some (.error .EBUSY, { file with cached := some cached })
      | (.failed err, cached)        =>
        let cached := { cached with dirty :=
          if cached.dirty.lastError = some err then { cached.dirty with lastError := none } else cached.dirty }
        if cached.isDirty then { file with cached := some cached }.flush outcomes
        else some (.error err, { file with cached := some cached })
      | (.snapshot snapshot, cached) =>
        let (result, disk) := file.disk.applyWritebackSnapshot snapshot outcome
        let file := { file with disk, cached := some (cached.finishWritebackSnapshot snapshot result) }
        match result with
        | .error err => some (.error err, file)
        | .ok ()     => file.flush outcomes

-- `close_regular_ino` for the last descriptor. Opening the file again does nothing to it.
def close : RegularFile :=
  match file.cached with
  | none        => file
  | some cached =>
    if cached.isDirty then { file with cached := some cached.scheduleWriteback }
    else { file with cached := none, clean _ := none }

end RegularFile

-- Pages of the clean page cache may be reclaimed at any time.
inductive RegularFileAct
  | read (alloc : Nat → Bool) (offset len : Nat)
  | write (frames offset : Nat) (buf : List UInt8)
  | truncate (frames newLen : Nat)
  | flush (outcomes : List DiskOutcome)
  | close
  | reclaim (keep : Nat → Bool)

inductive RegularFileResult
  | bytes (result : Except SysErrNo (List UInt8))
  | count (result : Except SysErrNo Nat)
  | done (result : Except SysErrNo Unit)

namespace RegularFile

def step (file : RegularFile) : RegularFileAct → Option (RegularFileResult × RegularFile)
  | .read alloc offset len   =>
    let (result, file) := file.read alloc offset len
    some (.bytes result, file)
  | .write frames offset buf =>
    let (result, file) := file.write frames offset buf
    some (.count result, file)
  | .truncate frames newLen  =>
    let (result, file) := file.truncate frames newLen
    some (.done result, file)
  | .flush outcomes          => (file.flush outcomes).map fun (result, file) => (.done result, file)
  | .close                   => some (.done (.ok ()), file.close)
  | .reclaim keep            =>
    some (.done (.ok ()), { file with clean index := if keep index then file.clean index else none })

-- A sequential run, with what the calls return.
inductive Run (allowed : RegularFile → RegularFileAct → Prop) (start : RegularFile) :
    List (RegularFileAct × RegularFileResult) → RegularFile → Prop
  | nil : Run allowed start [] start
  | snoc {trace : List (RegularFileAct × RegularFileResult)} {file file' : RegularFile} {act : RegularFileAct}
      {result : RegularFileResult} :
      Run allowed start trace file → allowed file act → file.step act = some (result, file') →
        Run allowed start (trace ++ [(act, result)]) file'

end RegularFile

-- A file is a vector of bytes: a gap is filled with zeros, and so is what a file grows by.
namespace ByteVector

def write (bytes : List UInt8) (offset : Nat) (data : List UInt8) : List UInt8 :=
  if data.isEmpty then bytes
  else overwrite (resize 0 bytes (max bytes.length (offset + data.length))) offset data

def apply (bytes : List UInt8) : RegularFileAct × RegularFileResult → List UInt8
  | (.write _ offset buf, .count (.ok n))  => write bytes offset (buf.take n)
  | (.truncate _ newLen, .done (.ok ()))   => resize 0 bytes newLen
  | _                                      => bytes

end ByteVector

namespace RegularFile

variable (file : RegularFile)

-- The file answers as the vector of bytes does.
structure Refines (bytes : List UInt8) : Prop where
  size : file.regularFileSize = bytes.length
  read : ∀ alloc offset len, (file.read alloc offset len).fst = .ok (slice bytes offset len)

-- A write does not start behind the end of the file, a file that is not cached does not grow, and the device does not
-- lose data.
def Sound : RegularFileAct → Prop
  | .write _ offset _   => offset ≤ file.regularFileSize
  | .truncate _ newLen  => file.cached = none → newLen ≤ file.disk.size
  | .flush outcomes     => ∀ outcome ∈ outcomes, outcome.stored
  | _                   => True

-- Nothing of the file is cached.
def Unopened : Prop :=
  file.cached = none ∧ ∀ index, file.clean index = none

def contents : List UInt8 :=
  (List.range file.disk.size).map file.disk.byte

end RegularFile

end WllOs.Fs
