import WllOs.Fs.Writeback

namespace WllOs.Fs

open SysErrNo ( EIO)

-- What comes of a read of the disk. A block that the device cannot read has zeros in it: an inode of zeros is not that
-- of a regular file, and a block of extents or data is one of zeros.
inductive ReadOutcome
  | done
  | inodeLost
  | blockLost
  deriving DecidableEq

-- `extent_aware_read_at` within a block
def DiskFile.readVia (disk : DiskFile) (outcome : ReadOutcome) (offset len : Nat) : Except SysErrNo (List UInt8) :=
  match outcome with
  | .done      => disk.extentAwareReadAt offset len
  | .inodeLost => if len = 0 then .ok [] else .error .EINVAL
  | .blockLost => (disk.extentAwareReadAt offset len).map fun bytes => List.replicate bytes.length 0

namespace CachedRegularFile

variable (disk : DiskFile) (reads : Nat → ReadOutcome) (cached : CachedRegularFile)

def copyPageVia (current count : Nat) : Except SysErrNo (List UInt8) :=
  match cached.pages (current / pageSize) with
  | some page => .ok ((List.range count).map fun i => pageByte page (current + i))
  | none      =>
    if current < cached.persistedSize then
      let diskCount := min count (cached.persistedSize - current)
      match disk.readVia (reads (current / pageSize)) current diskCount with
      | .error err => .error err
      | .ok bytes  =>
        if bytes.length ≠ diskCount then .error EIO else .ok (bytes ++ List.replicate (count - diskCount) 0)
    else .ok (List.replicate count 0)

def copyPagesVia (current len : Nat) : Except SysErrNo (List UInt8) :=
  if len = 0 then .ok []
  else
    let count := min len (pageSize - current % pageSize)
    match cached.copyPageVia disk reads current count with
    | .error err => .error err
    | .ok bytes  => (copyPagesVia (current + count) (len - count)).map (bytes ++ ·)
termination_by len
decreasing_by
  have := Nat.mod_lt current pageSize_pos
  omega

-- `copy_cached_range`, when each page is read with an outcome of its own
def copyCachedRangeVia (start len : Nat) : Except SysErrNo (List UInt8) :=
  match cached.dense with
  | some dense => if start + len ≤ dense.length then .ok (Buffer.slice dense start len) else .error EIO
  | none       => cached.copyPagesVia disk reads start len

def takeWritebackSnapshotVia : WritebackSnapshotResult × CachedRegularFile :=
  if cached.evicted then (.noCache, cached)
  else if ¬cached.isDirty then (.clean, cached)
  else
    match cached.dirty.lastError with
    | some err => (.failed err, cached)
    | none     =>
      let expanded := cached.expandFullDirty
      match expanded.beginWriteback with
      | none => (.busy, { cached with dirty := expanded })
      | some (dirtySeq, dirty) =>
        let range := dirty.ranges.head?.bind cluster
        let cached := { cached with dirty }
        match range.elim (.ok []) fun range =>
          cached.copyCachedRangeVia disk reads range.start (range.stop - range.start) with
        | .error err => (.failed err, { cached with dirty := dirty.failWriteback err })
        | .ok data   =>
          let commitSize := commitsSize range dirty.ranges
          (.snapshot ⟨cached.size, cached.truncateTo, range, data, commitSize, dirtySeq⟩, cached)

def acknowledge (err : SysErrNo) : CachedRegularFile :=
  { cached with dirty := if cached.dirty.lastError = some err then { cached.dirty with lastError := none }
                         else cached.dirty }

end CachedRegularFile

-- What comes of applying a snapshot. If the device cannot read the inode, anything may become of the file.
inductive ApplyOutcome
  | disk (outcome : DiskOutcome)
  | inodeLost (result : Except SysErrNo Unit) (disk : DiskFile)

-- What a time round the loop meets. `busy` is what waiting for another snapshot returns.
structure FlushRound where
  reads : Nat → ReadOutcome
  apply : ApplyOutcome
  busy : Except SysErrNo Unit

-- An inode whose file is cached, and its file on the disk.
structure CachedInode where
  disk : DiskFile
  cached : CachedRegularFile

namespace CachedInode

variable (inode : CachedInode)

def applyWritebackSnapshot (snapshot : WritebackSnapshot) : ApplyOutcome → Except SysErrNo Unit × DiskFile
  | .disk outcome          => inode.disk.applyWritebackSnapshot snapshot outcome
  | .inodeLost result disk => (result, disk)

-- The body of the loop of `flush_cached_ino`: what it returns, unless it goes round again. Writing the times of the
-- file is left out.
def flushRound (round : FlushRound) : Option (Except SysErrNo Unit) × CachedInode :=
  match inode.cached.takeWritebackSnapshotVia inode.disk round.reads with
  | (.noCache, cached)           => (some (.ok ()), { inode with cached })
  | (.clean, cached)             => (some (.ok ()), { inode with cached })
  | (.failed err, cached)        =>
    let cached := cached.acknowledge err
    (if cached.isDirty then none else some (.error err), { inode with cached })
  | (.busy, cached)              =>
    match round.busy with
    | .ok ()     => (none, { inode with cached })
    | .error err => (some (.error err), { inode with cached })
  | (.snapshot snapshot, cached) =>
    let (result, disk) := inode.applyWritebackSnapshot snapshot round.apply
    let inode := ⟨disk, cached.finishWritebackSnapshot snapshot result⟩
    match result with
    | .ok ()     => (none, inode)
    | .error err => (some (.error err), inode)

-- The loop from its `k`th time round on. It is cut off after `fuel` times.
def flush (rounds : Nat → FlushRound) : Nat → Nat → CachedInode → Option (Except SysErrNo Unit × CachedInode)
  | 0,        _, _     => none
  | fuel + 1, k, inode =>
    match inode.flushRound (rounds k) with
    | (some result, inode) => some (result, inode)
    | (none, inode)        => flush rounds fuel (k + 1) inode

end CachedInode

-- The device does what it is asked, and there is room for a cluster.
structure FlushRound.Works (round : FlushRound) : Prop where
  reads : ∀ page, round.reads page = .done
  apply : ∃ outcome supply, round.apply = .disk outcome ∧ outcome.stored ∧ outcome.supply = .ok supply ∧
    DiskFile.blockCount WRITEBACK_CLUSTER_BYTES + 1 ≤ supply.length

namespace CachedInode

variable (inode : CachedInode)

-- The disk has the file that `inode` had.
structure Flushed (disk : DiskFile) : Prop where
  size : disk.size = inode.cached.size
  byte : ∀ pos < inode.cached.size, disk.byte pos = inode.cached.byte inode.disk pos

-- What `flush_cached_ino` promises: it returns, it does not hide a failure, and nothing gets lost by one.
structure FlushSound (rounds : Nat → FlushRound) : Prop where
  returns : ∃ fuel result, inode.flush rounds fuel 0 = some result
  ok : ∀ fuel inode', inode.flush rounds fuel 0 = some (.ok (), inode') → inode.Flushed inode'.disk
  dirty : ∀ fuel err inode', inode.flush rounds fuel 0 = some (.error err, inode') →
    (inode'.disk.size = inode.cached.size ∨ inode'.cached.dirty.dataDirty) ∧
    ∀ pos < inode.cached.size, inode'.cached.DirtyAt pos ∨
      pos < inode'.disk.size ∧ inode'.disk.byte pos = inode.cached.byte inode.disk pos
  later : ∀ fuel err inode', inode.flush rounds fuel 0 = some (.error err, inode') →
    ∀ rounds', (∀ k, (rounds' k).Works) → ∃ fuel' inode'',
      inode'.flush rounds' fuel' 0 = some (.ok (), inode'') ∧ inode.Flushed inode''.disk

end CachedInode

-- The device stores what it writes and reads the inode for a snapshot that is applied, it reads all blocks of data, and
-- there comes a time from which on it reads the inode for copying.
structure Dependable (rounds : Nat → FlushRound) : Prop where
  stored : ∀ k, ∃ outcome, (rounds k).apply = .disk outcome ∧ outcome.stored
  blocks : ∀ k page, (rounds k).reads page ≠ .blockLost
  inode : ∃ last, ∀ k ≥ last, ∀ page, (rounds k).reads page ≠ .inodeLost

end WllOs.Fs
