import WllOs.Fs.Descriptor
import WllOs.Library.Spans

namespace WllOs.Fs

open Buffer
open SysErrNo ( EIO)

@[irreducible]
def DENSE_REGULAR_CACHE_LIMIT : Nat := 8 * 1024 * 1024

@[irreducible]
def WRITEBACK_CLUSTER_BYTES : Nat := 256 * 1024

@[irreducible]
def EXT4_MAX_FILE_SIZE : Nat := 16 * 1024 * 1024 * 1024

-- Logical blocks are numbered with 32 bits.
@[irreducible]
def EXT_MAX_SIZE : Nat := 2 ^ 32 * pageSize

-- The byte of a page that holds a position of a file, and the page where some positions of it have other bytes.
def pageByte (page : Page) (pos : Nat) : UInt8 :=
  page ⟨pos % pageSize, Nat.mod_lt _ pageSize_pos⟩

def pageUpdate (page : Page) (index : Nat) (bytes : Nat → Option UInt8) : Page :=
  fun off => (bytes (index * pageSize + off)).getD (page off)

-- The bytes that a buffer has at positions of a file, when it is put there.
def placed (offset : Nat) (buf : List UInt8) (pos : Nat) : Option UInt8 :=
  if offset ≤ pos then buf[pos - offset]? else none

def zeroFrom (len : Nat) (pos : Nat) : Option UInt8 :=
  if len ≤ pos then some 0 else none

-- A file on the disk. Blocks are as large as pages, and those that no extent has are holes.
structure DiskFile where
  size : Nat
  blocks : List (Option Page)

-- How a write to the disk comes out: the blocks that the allocator finds, with their old bytes, and whether the device
-- has stored the data. A write that the device has failed to do is only logged.
structure DiskOutcome where
  supply : Except SysErrNo (List Page)
  stored : Bool

namespace DiskFile

def blockCount (size : Nat) : Nat :=
  (size + pageSize - 1) / pageSize

variable (file : DiskFile)

-- The blocks from `blockCount` on have been left by writes that have failed.
def fileBlocks : Nat :=
  blockCount file.size

def byte (pos : Nat) : UInt8 :=
  ((file.blocks[pos / pageSize]?).join.map (pageByte · pos)).getD 0

def extentAwareReadAt (offset len : Nat) : Except SysErrNo (List UInt8) :=
  if len = 0 ∨ offset ≥ file.size then .ok []
  else
    let total := min len (file.size - offset)
    if (offset + total - 1) / pageSize > 2 ^ 32 - 1 then .error .EFBIG
    else .ok ((List.range total).map fun i => file.byte (offset + i))

-- The bytes of blocks where a buffer has been put. Those for holes get lost.
def updateBlocks (bytes : Nat → Option UInt8) : List (Option Page) :=
  file.blocks.mapIdx fun index block => block.map (pageUpdate · index bytes)

-- `truncate_inode`
def truncateInode (newSize : Nat) : DiskFile :=
  let newBlocks := blockCount newSize
  let last := if newSize % pageSize = 0 then file.blocks else
    file.blocks.modify (newSize / pageSize) (Option.map (pageUpdate · (newSize / pageSize) (zeroFrom newSize)))
  { size := newSize, blocks := if file.fileBlocks > newBlocks then last.take newBlocks else last }

-- `append_inode_pblk_batch`
def append (allocated : List Page) : DiskFile :=
  { file with blocks :=
      file.blocks ++ List.replicate (file.fileBlocks - file.blocks.length) none ++ allocated.map some }

-- How many blocks a write allocates.
def toAllocate (offset len : Nat) : Nat :=
  let first := offset / pageSize
  let needed := blockCount (offset + len) - first
  if first ≥ file.fileBlocks then needed else needed - (file.fileBlocks - first)

-- How many bytes can be written when the allocator has found fewer blocks.
def allocatedRoom (offset allocated : Nat) : Nat :=
  let unaligned := offset % pageSize
  if unaligned > 0 then (if allocated > 0 then pageSize - unaligned + (allocated - 1) * pageSize else 0)
  else allocated * pageSize

def availableBlocks (offset allocated : Nat) : Nat :=
  let first := offset / pageSize
  if first ≥ file.fileBlocks then allocated else file.fileBlocks - first + allocated

-- The part of `write_at` when the blocks have been allocated.
def writeBlocks (stored : Bool) (offset : Nat) (data : List UInt8) (allocated : Nat) (file' : DiskFile) :
    Except SysErrNo Nat × DiskFile :=
  if file.availableBlocks offset allocated < blockCount data.length then (.error .ENOSPC, file')
  else
    let written := if stored then { file' with blocks := file'.updateBlocks (placed offset data) } else file'
    let newSize := offset + data.length
    if newSize ≤ file.size then (.ok data.length, written)
    else if newSize > EXT4_MAX_FILE_SIZE then (.error .EFBIG, written)
    else (.ok data.length, { written with size := newSize })

def writeAt (outcome : DiskOutcome) (offset : Nat) (data : List UInt8) : Except SysErrNo Nat × DiskFile :=
  if data.isEmpty then (.ok 0, file)
  else
    let wanted := file.toAllocate offset data.length
    match if wanted = 0 then .ok [] else outcome.supply with
    | .error err => (.error err, file)
    | .ok supply =>
      let allocated := supply.take wanted
      let room := allocatedRoom offset allocated.length
      let file' := if allocated.isEmpty then file else file.append allocated
      if allocated.length = wanted then file.writeBlocks outcome.stored offset data allocated.length file'
      else if room = 0 then (.error .ENOSPC, file')
      else file.writeBlocks outcome.stored offset (data.take room) allocated.length file'

end DiskFile

inductive PageCacheWritebackState
  | clean
  | dirty
  | queued
  | writeback
  | dirtyDuringWriteback
  deriving DecidableEq

structure PageCacheDirtyModel where
  ranges : List Span
  fullDirty : Bool
  sizeDirty : Bool
  writeback : PageCacheWritebackState
  lastError : Option SysErrNo
  seq : Nat

namespace PageCacheDirtyModel

open PageCacheWritebackState

def clean : PageCacheDirtyModel where
  ranges := []
  fullDirty := false
  sizeDirty := false
  writeback := .clean
  lastError := none
  seq := 0

def dirtyWholeFile : PageCacheDirtyModel where
  ranges := []
  fullDirty := true
  sizeDirty := true
  writeback := .dirty
  lastError := none
  seq := 1

variable (model : PageCacheDirtyModel)

def dataDirty : Bool :=
  model.fullDirty || model.sizeDirty || !model.ranges.isEmpty

def writebackActive : Bool :=
  model.writeback = .writeback || model.writeback = .dirtyDuringWriteback

def settled : PageCacheWritebackState :=
  if model.dataDirty then .dirty else .clean

def refreshWritebackState : PageCacheDirtyModel :=
  if model.writebackActive then model else { model with writeback := model.settled }

def noteWrite : PageCacheDirtyModel :=
  { model with
    seq := Usize.wrappingAdd model.seq 1
    writeback := if model.writebackActive then .dirtyDuringWriteback else .dirty }

def noteQueued : PageCacheDirtyModel :=
  if model.dataDirty ∧ (model.writeback = .dirty ∨ model.writeback = .queued) then
    { model with writeback := .queued }
  else model

def beginWriteback : Option (Nat × PageCacheDirtyModel) :=
  if model.writebackActive ∨ ¬model.dataDirty then none else some (model.seq, { model with writeback := .writeback })

-- The result is whether the file is still dirty.
def finishWriteback (seq : Nat) (completed : Option Span) (committedSize : Bool) : Bool × PageCacheDirtyModel :=
  if model.seq = seq then
    let finished := { model with
      ranges := completed.elim model.ranges (Span.subtract · model.ranges)
      fullDirty := false
      sizeDirty := model.sizeDirty && !committedSize }
    (finished.dataDirty, { finished with writeback := finished.settled, lastError := none })
  else (model.dataDirty, { model with writeback := .dirty })

def failWriteback (err : SysErrNo) : PageCacheDirtyModel :=
  { model with lastError := some err, writeback := model.settled }

def clipDirtyRanges (len : Nat) : PageCacheDirtyModel :=
  { model with ranges := Span.clip len model.ranges }.refreshWritebackState

-- The shortcut of `mark_dirty_range` for a range that starts in the last one.
def extendLast (new : Span) : Option (List Span) :=
  match model.ranges.getLast? with
  | some last =>
    if new.start ≥ last.start ∧ new.stop ≤ last.stop then some model.ranges
    else if new.start ≥ last.start ∧ new.start ≤ last.stop then some (model.ranges.dropLast ++ [last.hull new])
    else none
  | none => none

def markDirtyRange (size start stop : Nat) : PageCacheDirtyModel :=
  match Span.ofBounds start (min stop size) with
  | none     => model
  | some new =>
    match model.extendLast new with
    | some ranges => { model with ranges }
    | none        => { model with ranges := Span.insert new model.ranges }.refreshWritebackState

end PageCacheDirtyModel

-- The bytes of a file that is cached are in a vector or in frames. The disk has those of pages without a frame.
structure CachedRegularFile where
  dense : Option (List UInt8)
  pages : Nat → Option Page
  size : Nat
  persistedSize : Nat
  truncateTo : Option Nat
  dirty : PageCacheDirtyModel
  evicted : Bool

structure WritebackSnapshot where
  targetLen : Nat
  truncateTo : Option Nat
  range : Option Span
  data : List UInt8
  commitSize : Bool
  dirtySeq : Nat

namespace WritebackSnapshot

variable (snapshot : WritebackSnapshot)

-- The size that applying the snapshot truncates a longer file to.
def cut : Nat :=
  min (snapshot.truncateTo.getD snapshot.targetLen) snapshot.targetLen

def rangeStop : Nat :=
  snapshot.range.elim 0 Span.stop

end WritebackSnapshot

inductive WritebackSnapshotResult
  | noCache
  | clean
  | failed (err : SysErrNo)
  | busy
  | snapshot (snapshot : WritebackSnapshot)

namespace CachedRegularFile

def new (size persistedSize : Nat) (dense : Option (List UInt8)) (dirty : PageCacheDirtyModel) :
    CachedRegularFile where
  dense := dense
  pages _ := none
  size := size
  persistedSize := persistedSize
  truncateTo := none
  dirty := dirty
  evicted := false

variable (disk : DiskFile) (cached : CachedRegularFile)

-- The bytes of the file.
def byte (pos : Nat) : UInt8 :=
  match cached.dense with
  | some dense => dense.getD pos 0
  | none       =>
    match cached.pages (pos / pageSize) with
    | some page => pageByte page pos
    | none      => if pos < cached.persistedSize then disk.byte pos else 0

-- A position whose byte is that of the disk.
def FromDisk (pos : Nat) : Prop :=
  cached.dense = none ∧ cached.pages (pos / pageSize) = none ∧ pos < cached.persistedSize

def isDirty : Bool :=
  !cached.evicted && cached.dirty.dataDirty

-- The part of `copy_cached_range` within one page.
def copyPage (current count : Nat) : Except SysErrNo (List UInt8) :=
  match cached.pages (current / pageSize) with
  | some page => .ok ((List.range count).map fun i => pageByte page (current + i))
  | none      =>
    if current < cached.persistedSize then
      let diskCount := min count (cached.persistedSize - current)
      match disk.extentAwareReadAt current diskCount with
      | .error err => .error err
      | .ok bytes  =>
        if bytes.length ≠ diskCount then .error EIO else .ok (bytes ++ List.replicate (count - diskCount) 0)
    else .ok (List.replicate count 0)

def copyPages (current len : Nat) : Except SysErrNo (List UInt8) :=
  if len = 0 then .ok []
  else
    let count := min len (pageSize - current % pageSize)
    match cached.copyPage disk current count with
    | .error err => .error err
    | .ok bytes  => (copyPages (current + count) (len - count)).map (bytes ++ ·)
termination_by len
decreasing_by
  have := Nat.mod_lt current pageSize_pos
  omega

def copyCachedRange (start len : Nat) : Except SysErrNo (List UInt8) :=
  match cached.dense with
  | some dense => if start + len ≤ dense.length then .ok (slice dense start len) else .error EIO
  | none       => cached.copyPages disk start len

-- There may be no more than `frames` frames.
def promoteDense (frames : Nat) : Except SysErrNo (CachedRegularFile × Nat) :=
  match cached.dense with
  | none       => .ok (cached, frames)
  | some dense =>
    let count := DiskFile.blockCount dense.length
    if frames < count then .error .ENOMEM
    else
      let pages index :=
        if index < count then some fun off : Fin pageSize => dense.getD (index * pageSize + off) 0 else none
      .ok ({ cached with pages, dense := none }, frames - count)

-- The frame of a page, and how many frames are left.
def cachedPageForWrite (frames index : Nat) (preserveContents : Bool) : Except SysErrNo (Page × Nat) :=
  match cached.pages index with
  | some page => .ok (page, frames)
  | none      =>
    if frames = 0 then .error .ENOMEM
    else
      let start := index * pageSize
      if preserveContents ∧ start < cached.persistedSize then
        let readLen := min pageSize (cached.persistedSize - start)
        match disk.extentAwareReadAt start readLen with
        | .error err => .error err
        | .ok bytes  =>
          if bytes.length ≠ readLen then .error EIO
          else .ok (fun off => bytes.getD off 0, frames - 1)
      else .ok (Page.zero, frames - 1)

def setPage (index : Nat) (page : Page) : CachedRegularFile :=
  { cached with pages := Function.update cached.pages index (some page) }

-- The loop of `cached_regular_write` over pages: how many bytes have been copied.
def writePages (frames : Nat) (cached : CachedRegularFile) (current : Nat) (buf : List UInt8) :
    Nat × CachedRegularFile × Option SysErrNo :=
  if buf.isEmpty then (0, cached, none)
  else
    let pageOff := current % pageSize
    let count := min buf.length (pageSize - pageOff)
    match cached.cachedPageForWrite disk frames (current / pageSize) (pageOff ≠ 0 ∨ count ≠ pageSize) with
    | .error err => (0, cached, some err)
    | .ok (page, frames) =>
      let page := pageUpdate page (current / pageSize) (placed current (buf.take count))
      let (copied, cached, err) :=
        writePages frames (cached.setPage (current / pageSize) page) (current + count) (buf.drop count)
      (count + copied, cached, err)
termination_by buf.length
decreasing_by
  simp_all only [List.isEmpty_iff, List.length_drop]
  have := List.length_pos_of_ne_nil ‹_›
  have := Nat.mod_lt current pageSize_pos
  omega

-- The end of `cached_regular_write`.
def noteCachedDataWrite (offset writtenEnd : Nat) : CachedRegularFile :=
  let size := max cached.size writtenEnd
  let dirty := cached.dirty.markDirtyRange size offset writtenEnd
  let sizeDirty := dirty.sizeDirty || decide (writtenEnd > cached.size)
  { cached with size, dirty := { dirty with sizeDirty }.noteWrite }

def cachedRegularWrite (frames offset : Nat) (buf : List UInt8) : Except SysErrNo Nat × CachedRegularFile :=
  let «end» := offset + buf.length
  if cached.evicted then (.error .ENOENT, cached)
  else
    match if «end» > DENSE_REGULAR_CACHE_LIMIT then cached.promoteDense frames else .ok (cached, frames) with
    | .error err => (.error err, cached)
    | .ok (cached, frames) =>
      match cached.dense with
      | some dense =>
        let dense := if «end» > dense.length then resize 0 dense «end» else dense
        (.ok buf.length, { cached with dense := some (overwrite dense offset buf) }.noteCachedDataWrite offset «end»)
      | none       =>
        match writePages disk frames cached offset buf with
        | (0, _, some err)    => (.error err, cached)
        | (copied, cached, _) => (.ok copied, cached.noteCachedDataWrite offset (offset + copied))

-- The pages of a file that gets shorter.
def truncatePages (newLen index : Nat) : Option Page :=
  if index ≥ DiskFile.blockCount newLen then none
  else if newLen % pageSize ≠ 0 ∧ index = newLen / pageSize then
    (cached.pages index).map (pageUpdate · index (zeroFrom newLen))
  else cached.pages index

def shrink (newLen : Nat) : CachedRegularFile :=
  { cached with
    persistedSize := min cached.persistedSize newLen
    truncateTo := some (cached.truncateTo.elim newLen (min · newLen))
    dense := cached.dense.map (List.take newLen)
    pages := if cached.dense.isSome then cached.pages else cached.truncatePages newLen
    size := newLen
    dirty := { cached.dirty.clipDirtyRanges newLen with sizeDirty := true }.noteWrite }

def grow (newLen : Nat) : CachedRegularFile :=
  { cached with
    dense := cached.dense.map (resize 0 · newLen)
    size := newLen
    dirty := { cached.dirty.markDirtyRange newLen cached.size newLen with sizeDirty := true }.noteWrite }

def setSize (newLen : Nat) : CachedRegularFile :=
  if newLen < cached.size then cached.shrink newLen
  else if newLen > cached.size then cached.grow newLen
  else { cached with dirty := { cached.dirty with sizeDirty := true }.noteWrite }

def cachedRegularResize (frames newLen : Nat) : Except SysErrNo Unit × CachedRegularFile :=
  if cached.evicted then (.error .ENOENT, cached)
  else
    match if newLen > DENSE_REGULAR_CACHE_LIMIT then cached.promoteDense frames else .ok (cached, frames) with
    | .error err => (.error err, cached)
    | .ok (cached, _) => (.ok (), cached.setSize newLen)

-- A file that is dirty as a whole has a single range that is dirty.
def expandFullDirty : PageCacheDirtyModel :=
  if cached.dirty.fullDirty then
    { cached.dirty with ranges := (Span.ofBounds 0 cached.size).toList, fullDirty := false }
  else cached.dirty

-- The part of a range that is written back at once.
def cluster (range : Span) : Option Span :=
  Span.ofBounds range.start (min range.stop (Usize.saturatingAdd range.start WRITEBACK_CLUSTER_BYTES))

def commitsSize (range : Option Span) (ranges : List Span) : Bool :=
  match range, ranges with
  | none,           []     => true
  | some completed, [only] => completed.start = only.start && completed.stop = only.stop
  | _,              _      => false

def takeWritebackSnapshot : WritebackSnapshotResult × CachedRegularFile :=
  if cached.evicted then (.noCache, cached)
  else if ¬cached.isDirty then (.clean, cached)
  else
    match cached.dirty.lastError with
    | some err => (.failed err, cached)
    | none     =>
      let expanded := cached.expandFullDirty
      match expanded.beginWriteback with
      | none => (.busy, { cached with dirty := expanded })
      | some (dirtySeq, dirty) =>
        let range := dirty.ranges.head?.bind cluster
        let cached := { cached with dirty }
        match range.elim (.ok []) fun range => cached.copyCachedRange disk range.start (range.stop - range.start) with
        | .error err => (.failed err, { cached with dirty := dirty.failWriteback err })
        | .ok data   =>
          let commitSize := commitsSize range dirty.ranges
          (.snapshot ⟨cached.size, cached.truncateTo, range, data, commitSize, dirtySeq⟩, cached)

-- When the snapshot has been applied.
def finishWritebackSnapshot (snapshot : WritebackSnapshot) (result : Except SysErrNo Unit) : CachedRegularFile :=
  if cached.evicted then cached
  else
    match result with
    | .error err => { cached with dirty := cached.dirty.failWriteback err }
    | .ok ()     =>
      let same := cached.dirty.seq = snapshot.dirtySeq ∧ cached.truncateTo = snapshot.truncateTo
      let (requeue, dirty) := cached.dirty.finishWriteback snapshot.dirtySeq snapshot.range snapshot.commitSize
      { cached with
        truncateTo := if same then none else cached.truncateTo
        dirty
        persistedSize := if requeue then min cached.persistedSize snapshot.targetLen else snapshot.targetLen }

end CachedRegularFile

namespace DiskFile

variable (file : DiskFile) (snapshot : WritebackSnapshot)

-- The last steps of `apply_writeback_snapshot`. The size was `oldSize` before.
def commitSnapshot (oldSize : Nat) : Except SysErrNo Unit × DiskFile :=
  let file := if snapshot.commitSize ∧ snapshot.targetLen > file.size then { file with size := snapshot.targetLen }
    else file
  if snapshot.targetLen = 0 ∧ oldSize ≠ 0 ∧ file.size ≠ 0 then (.error EIO, file) else (.ok (), file)

def truncateForSnapshot : DiskFile :=
  if snapshot.cut < file.size then file.truncateInode snapshot.cut else file

def applyWritebackSnapshot (outcome : DiskOutcome) : Except SysErrNo Unit × DiskFile :=
  let truncated := file.truncateForSnapshot snapshot
  match snapshot.range with
  | none       => truncated.commitSnapshot snapshot file.size
  | some range =>
    match truncated.writeAt outcome range.start snapshot.data with
    | (.error err, file') => (.error err, file')
    | (.ok written, file') =>
      if written ≠ snapshot.data.length then (.error EIO, file') else file'.commitSnapshot snapshot file.size

end DiskFile

end WllOs.Fs
