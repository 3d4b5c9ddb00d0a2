import WllOs.Fs.PageCache

namespace WllOs.Fs

-- A call of `flush_cached_ino`: it is about to take a snapshot, has to acknowledge an error, or has a snapshot in
-- flight.
inductive FlushCall
  | idle
  | running
  | failing (err : SysErrNo)
  | flushing
  | returned (result : Except SysErrNo Unit)

-- A snapshot that has been taken, and what has come of it when it has been applied. The worker has no call.
structure InFlight where
  snapshot : WritebackSnapshot
  result : Option (Except SysErrNo Unit)
  call : Option Nat

-- An inode whose file is cached.
structure Writeback where
  disk : DiskFile
  cached : CachedRegularFile
  inFlight : Option InFlight
  calls : Nat → FlushCall

inductive WritebackAct
  | write (frames offset : Nat) (buf : List UInt8)
  | resize (frames newLen : Nat)
  | queue
  | flush (call : Nat)
  | take (call : Option Nat)
  | giveUp (call : Nat)
  | acknowledge (call : Nat)
  | apply (outcome : DiskOutcome)
  | finish

namespace Writeback

variable (state : Writeback)

def setCall (call : Nat) (status : FlushCall) : Writeback :=
  { state with calls := Function.update state.calls call status }

def setCalls (call : Option Nat) (status : FlushCall) : Writeback :=
  call.elim state fun call => state.setCall call status

-- `ext4_write_at`, when the file is cached
def write (frames offset : Nat) (buf : List UInt8) : Writeback :=
  if buf.isEmpty ∨ offset + buf.length > MAX_FILE_OFFSET then state
  else { state with cached := (state.cached.cachedRegularWrite state.disk frames offset buf).snd }

-- `truncate_regular_ino`, when the file is cached
def resize (frames newLen : Nat) : Writeback :=
  if newLen > MAX_FILE_OFFSET then state
  else { state with cached := (state.cached.cachedRegularResize frames newLen).snd }

-- A call that finds a snapshot in flight waits, or gives up.
def take (call : Option Nat) : Writeback :=
  let (result, cached) := state.cached.takeWritebackSnapshot state.disk
  let state := { state with cached }
  match result with
  | .noCache           => state.setCalls call (.returned (.ok ()))
  | .clean             => state.setCalls call (.returned (.ok ()))
  | .failed err        => state.setCalls call (.failing err)
  | .busy              => state
  | .snapshot snapshot => { state with inFlight := some ⟨snapshot, none, call⟩ }.setCalls call .flushing

def acknowledgeWritebackError (err : SysErrNo) : CachedRegularFile :=
  let dirty := state.cached.dirty
  { state.cached with dirty := if dirty.lastError = some err then { dirty with lastError := none } else dirty }

-- Failing to write the times of the file is left out: a call that finds the file clean returns.
def step : WritebackAct → Option Writeback
  | .write frames offset buf => some (state.write frames offset buf)
  | .resize frames newLen    => some (state.resize frames newLen)
  | .queue                   => some { state with cached.dirty := state.cached.dirty.noteQueued }
  | .flush call              =>
    match state.calls call with
    | .idle | .returned _ => some (state.setCall call .running)
    | _                   => none
  | .take none               => some (state.take none)
  | .take (some call)        =>
    match state.calls call with
    | .running => some (state.take (some call))
    | _        => none
  | .giveUp call             =>
    match state.calls call with
    | .running => some (state.setCall call (.returned (.error .EBUSY)))
    | _        => none
  | .acknowledge call        =>
    match state.calls call with
    | .failing err =>
      let cached := state.acknowledgeWritebackError err
      some ({ state with cached }.setCall call (if cached.isDirty then .running else .returned (.error err)))
    | _            => none
  | .apply outcome           =>
    match state.inFlight with
    | some ⟨snapshot, none, call⟩ =>
      let (result, disk) := state.disk.applyWritebackSnapshot snapshot outcome
      some { state with disk, inFlight := some ⟨snapshot, some result, call⟩ }
    | _                           => none
  | .finish                  =>
    match state.inFlight with
    | some ⟨snapshot, some result, call⟩ =>
      let cached := state.cached.finishWritebackSnapshot snapshot result
      let status := match result with
        | .ok ()     => FlushCall.running
        | .error err => .returned (.error err)
      some ({ state with cached, inFlight := none }.setCalls call status)
    | _                                  => none

-- The file has just been cached: with its bytes from the disk, or as a file that has become empty.
def Opened : Prop :=
  state.inFlight = none ∧ (∀ call, state.calls call = .idle) ∧
    ((∃ dense, state.cached = .new state.disk.size state.disk.size dense .clean ∧
      ∀ bytes, dense = some bytes → state.disk.extentAwareReadAt 0 state.disk.size = .ok bytes) ∨
    (state.disk.size = 0 ∧
      (state.cached = .new 0 0 (some []) .clean ∨ state.cached = .new 0 0 (some []) .dirtyWholeFile)))

end Writeback

-- What the cache promises about the disk.
namespace CachedRegularFile

variable (disk : DiskFile) (cached : CachedRegularFile)

-- The bytes of the disk below it stay when the pending truncation has been done.
def kept : Nat :=
  min disk.size (cached.truncateTo.getD disk.size)

def DirtyAt (pos : Nat) : Prop :=
  cached.dirty.fullDirty ∨ Span.Covers cached.dirty.ranges pos

instance (pos : Nat) : Decidable (cached.DirtyAt pos) :=
  inferInstanceAs (Decidable (_ ∨ _))

-- The file on the disk with all that is pending over it. The range of the snapshot in flight is still dirty.
def overlaySize : Nat :=
  if cached.dirty.dataDirty then cached.size else disk.size

def overlayByte (pos : Nat) : UInt8 :=
  if cached.DirtyAt pos then cached.byte disk pos
  else if pos < cached.kept disk then disk.byte pos
  else 0

structure NothingLost : Prop where
  size : cached.overlaySize disk = cached.size
  byte : ∀ pos < cached.size, cached.overlayByte disk pos = cached.byte disk pos
  extended : ∀ pos < cached.size, cached.kept disk ≤ pos → cached.DirtyAt pos

-- The disk has the file as it is.
structure OnDisk : Prop where
  size : disk.size = cached.size
  byte : ∀ pos < cached.size, disk.byte pos = cached.byte disk pos

end CachedRegularFile

namespace Writeback

variable (state : Writeback)

-- The sequence number does not get back to that of the snapshot in flight.
def FreshSeq : Prop :=
  ∀ flight, state.inFlight = some flight → Usize.wrappingAdd state.cached.dirty.seq 1 ≠ flight.snapshot.dirtySeq

-- A write does not start behind the end of the file, and the device does not lose data.
def Sound : WritebackAct → Prop
  | .write _ offset _ => offset ≤ state.cached.size ∧ state.FreshSeq
  | .resize _ _       => state.FreshSeq
  | .apply outcome    => outcome.stored
  | _                 => True

-- The states that steps of a kind lead to.
inductive Run (allowed : Writeback → WritebackAct → Prop) : Writeback → Writeback → Prop
  | nil {state : Writeback} : Run allowed state state
  | snoc {state state' state'' : Writeback} {act : WritebackAct} :
      Run allowed state state' → allowed state' act → state'.step act = some state'' → Run allowed state state''

end Writeback

end WllOs.Fs
