import WllOs.Fs.PageCache

namespace WllOs.Fs

-- The calls that change the list of dirty ranges, and the changes of the size and the writes that go with them.
inductive DirtyCall
  | mark (start stop : Nat)
  | clip (len : Nat)
  | extend (size : Nat)
  | truncate (len : Nat)
  | noteWrite
  | take (disk : DiskFile)
  | finish (index : Nat)

-- A snapshot, and how many writes had been noted when it was taken.
structure DirtySnapshot where
  snapshot : WritebackSnapshot
  writes : Nat

-- The bytes that a snapshot has been taken of.
def DirtySnapshot.bytes (taken : DirtySnapshot) : Set Nat :=
  { pos | ∃ range, taken.snapshot.range = some range ∧ range.Mem pos }

-- A cached file with the bytes that the calls have left dirty, as a set. The snapshots are those taken so far.
structure DirtyRun where
  cached : CachedRegularFile
  bytes : Set Nat
  writes : Nat
  snapshots : List DirtySnapshot

namespace DirtyRun

variable (run : DirtyRun)

def withDirty (dirty : PageCacheDirtyModel) : DirtyRun :=
  { run with cached.dirty := dirty }

-- No write has been noted since the snapshot. The counter of `PageCacheDirtyModel` has 64 bits.
def NoWriteSince (taken : DirtySnapshot) : Prop :=
  (run.writes - taken.writes) % 2 ^ 64 = 0

instance (taken : DirtySnapshot) : Decidable (run.NoWriteSince taken) :=
  inferInstanceAs (Decidable (_ = _))

-- A file that is dirty as a whole gets a range.
def take (disk : DiskFile) : DirtyRun :=
  let (result, cached) := run.cached.takeWritebackSnapshot disk
  { run with
    cached
    bytes := if run.cached.dirty.fullDirty ∧ ¬cached.dirty.fullDirty then { pos | pos < run.cached.size } else run.bytes
    snapshots := match result with
      | .snapshot snapshot => run.snapshots ++ [⟨snapshot, run.writes⟩]
      | _                  => run.snapshots }

def finish (taken : DirtySnapshot) : DirtyRun :=
  let snapshot := taken.snapshot
  let (_, dirty) := run.cached.dirty.finishWriteback snapshot.dirtySeq snapshot.range snapshot.commitSize
  { run.withDirty dirty with
    bytes := if run.NoWriteSince taken then run.bytes \ taken.bytes else run.bytes }

def step : DirtyCall → DirtyRun
  | .mark start stop =>
    { run.withDirty (run.cached.dirty.markDirtyRange run.cached.size start stop) with
      bytes := run.bytes ∪ { pos | start ≤ pos ∧ pos < min stop run.cached.size } }
  | .clip len        =>
    { run.withDirty (run.cached.dirty.clipDirtyRanges len) with bytes := run.bytes ∩ { pos | pos < len } }
  | .extend size     => { run with cached.size := max run.cached.size size }
  | .truncate len    =>
    { run.withDirty (run.cached.dirty.clipDirtyRanges len) with
      cached.size := min run.cached.size len
      bytes := run.bytes ∩ { pos | pos < len } }
  | .noteWrite       => { run.withDirty run.cached.dirty.noteWrite with writes := run.writes + 1 }
  | .take disk       => run.take disk
  | .finish index    =>
    match run.snapshots[index]? with
    | some taken => run.finish taken
    | none       => run

def runCalls (calls : List DirtyCall) : DirtyRun :=
  calls.foldl step run

-- A file that has just been cached. It may be dirty as a whole, but has no dirty ranges yet.
def opened (size persistedSize : Nat) (dense : Option (List UInt8)) (wholeFile : Bool) : DirtyRun where
  cached := .new size persistedSize dense (if wholeFile then .dirtyWholeFile else .clean)
  bytes := ∅
  writes := 0
  snapshots := []

-- The list of ranges is the only one with gaps between its ranges that has the bytes. The shortcut for the last range
-- does what going through the list does.
structure NormalForm : Prop where
  nonempty : ∀ range ∈ run.cached.dirty.ranges, range.start < range.stop
  within : ∀ range ∈ run.cached.dirty.ranges, range.stop ≤ run.cached.size
  separated : run.cached.dirty.ranges.Pairwise fun left right => left.stop < right.start
  covers : ∀ pos, Span.Covers run.cached.dirty.ranges pos ↔ pos ∈ run.bytes
  unique : ∀ ranges, Span.Sorted ranges → (∀ pos, Span.Covers ranges pos ↔ pos ∈ run.bytes) →
    ranges = run.cached.dirty.ranges
  shortcut : ∀ new ranges, run.cached.dirty.extendLast new = some ranges →
    ranges = Span.insert new run.cached.dirty.ranges ∧ Span.Sorted ranges

end DirtyRun

end WllOs.Fs
