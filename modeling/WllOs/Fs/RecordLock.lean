import WllOs.Mm.Basic

namespace WllOs

inductive FileLockKey
  | memInode (ino : Nat)
  | memPath (name : String)
  | ext4 (ino : Nat)
  deriving DecidableEq, Repr

inductive FileLockOwner
  | posix (pid : Nat)
  | ofd (id : Nat)
  deriving DecidableEq, Repr

inductive FileLockKind
  | read
  | write
  deriving DecidableEq, Repr

-- The range has no end if `stop` is `none`.
structure FileLockRange where
  start : Nat
  stop : Option Nat
  deriving DecidableEq, Repr

structure FileRecordLock where
  file : FileLockKey
  owner : FileLockOwner
  pid : Nat
  kind : FileLockKind
  range : FileLockRange
  deriving DecidableEq, Repr

structure UserFlock64 where
  lType : Int
  lWhence : Int
  lStart : Int
  lLen : Int
  lPid : Int
  deriving DecidableEq, Repr

def F_RDLCK : Int := 0

def F_WRLCK : Int := 1

def F_UNLCK : Int := 2

-- What record locks depend on in the descriptor of an open file.
inductive LockDescriptor
  | memFile (name : String) (ino : Option Nat) (offset size : Nat) (readable writable : Bool) (ofdOwner : Nat)
  | ext4Regular (ino : Nat) (offset size : Nat) (readable writable : Bool) (ofdOwner : Nat)
  | other (size : Nat) (readable writable : Bool)

namespace LockDescriptor

-- `memFsInode` is the inode that the memory file system has for a name.
def lockKey (memFsInode : String → Option Nat) : LockDescriptor → Option FileLockKey
  | memFile name ino .. =>
    match (ino.filter (· ≠ 0)).or (memFsInode name) with
    | some ino => some (.memInode ino)
    | none     => some (.memPath name)
  | ext4Regular ino .. => some (.ext4 ino)
  | other ..           => none

def lockOffset : LockDescriptor → Nat
  | memFile _ _ offset .. | ext4Regular _ offset .. => offset
  | other ..                                        => 0

def size : LockDescriptor → Nat
  | memFile _ _ _ size .. | ext4Regular _ _ size .. | other size .. => size

def readable : LockDescriptor → Bool
  | memFile _ _ _ _ readable .. | ext4Regular _ _ _ readable .. | other _ readable _ => readable

def writable : LockDescriptor → Bool
  | memFile _ _ _ _ _ writable _ | ext4Regular _ _ _ _ writable _ | other _ _ writable => writable

def ofdOwnerId : LockDescriptor → Option Nat
  | memFile _ _ _ _ _ _ ofdOwner | ext4Regular _ _ _ _ _ ofdOwner => some ofdOwner
  | other ..                                                     => none

-- A request for a lock needs the descriptor to be open for what the lock is about.
def permits (fileDesc : LockDescriptor) : Option FileLockKind → Bool
  | some .read  => fileDesc.readable
  | some .write => fileDesc.writable
  | none        => true

end LockDescriptor

def flockKind (lockType : Int) : Except SysErrNo (Option FileLockKind) :=
  if lockType = F_RDLCK then .ok (some .read)
  else if lockType = F_WRLCK then .ok (some .write)
  else if lockType = F_UNLCK then .ok none
  else .error .EINVAL

def signedLockBase (whence : Int) (currentOffset fileSize : Nat) : Except SysErrNo Int :=
  if whence = 0 then .ok 0
  else if whence = 1 then .ok currentOffset
  else if whence = 2 then .ok fileSize
  else .error .EINVAL

-- The range that a length gives: it ends at `start` if the length is negative, and has no end if it is zero.
def flockInterval (start len : Int) : Int × Option Int :=
  if len > 0 then (start, some (start + len))
  else if len < 0 then (start + len, some start)
  else (start, none)

-- The first part of `flock_range`. The source computes with 128 bits, where the sum of three numbers of 64 bits
-- cannot overflow.
def flockBounds (flock : UserFlock64) (currentOffset fileSize : Nat) : Except SysErrNo (Int × Option Int) := do
  let base ← signedLockBase flock.lWhence currentOffset fileSize
  let bounds := flockInterval (base + flock.lStart) flock.lLen
  if bounds.fst < 0 || bounds.snd.any (· < 0) then
    .error .EINVAL
  else
    .ok bounds

-- The cast `as u64` keeps the low 64 bits.
def asU64 (value : Int) : Nat :=
  (value % 2 ^ 64).toNat

def flockRange (flock : UserFlock64) (currentOffset fileSize : Nat) : Except SysErrNo FileLockRange := do
  let (start, stop) ← flockBounds flock currentOffset fileSize
  return ⟨asU64 start, stop.map asU64⟩

namespace FileLockRange

def overlap (left right : FileLockRange) : Bool :=
  let leftBeforeRight := left.stop.any (· ≤ right.start)
  let rightBeforeLeft := right.stop.any (· ≤ left.start)
  !leftBeforeRight && !rightBeforeLeft

def touchOrOverlap (left right : FileLockRange) : Bool :=
  let leftBeforeRight := left.stop.any (· < right.start)
  let rightBeforeLeft := right.stop.any (· < left.start)
  !leftBeforeRight && !rightBeforeLeft

def merge (left right : FileLockRange) : FileLockRange where
  start := min left.start right.start
  stop := match left.stop, right.stop with
    | some leftStop, some rightStop => some (max leftStop rightStop)
    | _,             _              => none

def overlapStart (left right : FileLockRange) : Option Nat :=
  if left.overlap right then some (max left.start right.start) else none

def nonempty (range : FileLockRange) : Bool :=
  range.stop.all (range.start < ·)

def leftRemainder (old cut : FileLockRange) : List FileLockRange :=
  let left : FileLockRange := ⟨old.start, some cut.start⟩
  if old.start < cut.start && left.nonempty then [left] else []

def rightRemainder (old cut : FileLockRange) : List FileLockRange :=
  match cut.stop with
  | some cutStop =>
    let right : FileLockRange := ⟨max cutStop old.start, old.stop⟩
    if old.stop.all (cutStop < ·) && right.nonempty then [right] else []
  | none => []

def subtract (old cut : FileLockRange) : List FileLockRange :=
  old.leftRemainder cut ++ old.rightRemainder cut

variable {old cut remainder : FileLockRange}

theorem mem_leftRemainder :
    remainder ∈ old.leftRemainder cut ↔ old.start < cut.start ∧ remainder = ⟨old.start, some cut.start⟩ := by
  by_cases h : old.start < cut.start <;> simp [leftRemainder, nonempty, h]

theorem mem_rightRemainder :
    remainder ∈ old.rightRemainder cut ↔ ∃ cutStop, cut.stop = some cutStop ∧
      (∀ stop, old.stop = some stop → cutStop < stop ∧ old.start < stop) ∧
      remainder = ⟨max cutStop old.start, old.stop⟩ := by
  simp only [rightRemainder, nonempty]
  cases cut.stop <;> cases old.stop <;> simp

-- What is left of a range does not overlap what was cut, so the loop of `apply_file_unlock` passes over it.
theorem overlap_of_mem_subtract (h : remainder ∈ old.subtract cut) : remainder.overlap cut = false := by
  rw [subtract, List.mem_append, mem_leftRemainder, mem_rightRemainder] at h
  cases h
  case inl h =>
    have ⟨_, h⟩ := h
    simp [h, overlap]
  case inr h =>
    have ⟨cutStop, hc, _, h⟩ := h
    simp [h, overlap, hc]

theorem length_subtract : (old.subtract cut).length ≤ 2 := by
  have hl : (old.leftRemainder cut).length ≤ 1 := by
    unfold leftRemainder
    dsimp only
    split <;> simp
  have hr : (old.rightRemainder cut).length ≤ 1 := by
    unfold rightRemainder
    split
    case h_1 => dsimp only; split <;> simp
    case h_2 => simp
  simp only [subtract, List.length_append]
  omega

end FileLockRange

def FileLockKind.conflict (left right : FileLockKind) : Bool :=
  !(left = .read && right = .read)

-- Where a lock begins to overlap a request that it conflicts with.
def FileRecordLock.conflictStart (file : FileLockKey) (owner : FileLockOwner) (kind : FileLockKind)
    (range : FileLockRange) (lock : FileRecordLock) : Option Nat :=
  if lock.file ≠ file || lock.owner = owner || !lock.kind.conflict kind then none
  else lock.range.overlapStart range

-- The locks are scanned in the order of the table. `best` is the best conflict so far and where it starts.
def findLockConflict (locks : List FileRecordLock) (file : FileLockKey) (owner : FileLockOwner)
    (kind : FileLockKind) (range : FileLockRange) : Option FileRecordLock :=
  (go locks none).map Prod.snd
where
  go : List FileRecordLock → Option (Nat × FileRecordLock) → Option (Nat × FileRecordLock)
    | [], best => best
    | lock :: locks, best =>
      match lock.conflictStart file owner kind range with
      | none       => go locks best
      | some start =>
        let replace := best.all fun (bestStart, bestLock) =>
          start < bestStart || (start = bestStart && lock.range.start < bestLock.range.start)
        go locks (if replace then some (start, lock) else best)

namespace FileRecordLock

-- The test of the loop in `apply_file_unlock`.
def affected (file : FileLockKey) (owner : FileLockOwner) (range : FileLockRange) (lock : FileRecordLock) : Bool :=
  lock.file = file && lock.owner = owner && lock.range.overlap range

def remainders (range : FileLockRange) (lock : FileRecordLock) : List FileRecordLock :=
  (lock.range.subtract range).map fun remainder => { lock with range := remainder }

-- The test of the loop in `push_merged_file_lock`.
def mergeable (lock newLock : FileRecordLock) : Bool :=
  lock.file = newLock.file && lock.owner = newLock.owner && lock.kind = newLock.kind &&
    lock.range.touchOrOverlap newLock.range

def absorb (newLock lock : FileRecordLock) : FileRecordLock :=
  { newLock with range := newLock.range.merge lock.range }

variable {file : FileLockKey} {owner : FileLockOwner} {range : FileLockRange}

theorem length_remainders (lock : FileRecordLock) (range : FileLockRange) : (lock.remainders range).length ≤ 2 := by
  simpa [remainders] using FileLockRange.length_subtract

theorem countP_remainders (lock : FileRecordLock) :
    (lock.remainders range).countP (·.affected file owner range) = 0 := by
  simp only [List.countP_eq_zero, remainders, List.mem_map]
  intro remainder ⟨left, hl, he⟩
  simp [← he, affected, FileLockRange.overlap_of_mem_subtract hl]

end FileRecordLock

def applyFileUnlock (file : FileLockKey) (owner : FileLockOwner) (range : FileLockRange)
    (locks : List FileRecordLock) : List FileRecordLock :=
  go [] locks
where
  -- The locks before the index of the loop, and those from it on.
  go (seen : List FileRecordLock) : List FileRecordLock → List FileRecordLock
    | [] => seen
    | lock :: locks =>
      if lock.affected file owner range then
        go seen (locks ++ lock.remainders range)
      else
        go (seen ++ [lock]) locks
  termination_by locks => 3 * locks.countP (·.affected file owner range) + locks.length
  decreasing_by
    case _ h =>
      have := lock.length_remainders range
      simp [h, lock.countP_remainders]
      omega
    case _ h => simp [h]

def pushMergedFileLock (locks : List FileRecordLock) (newLock : FileRecordLock) : List FileRecordLock :=
  go [] locks newLock
where
  go (seen : List FileRecordLock) : List FileRecordLock → FileRecordLock → List FileRecordLock
    | [], newLock => seen ++ [newLock]
    | lock :: locks, newLock =>
      if lock.mergeable newLock then
        go seen locks (newLock.absorb lock)
      else
        go (seen ++ [lock]) locks newLock

-- The new table, or the owner of a lock that conflicts.
def applyFileLock (locks : List FileRecordLock) (file : FileLockKey) (owner : FileLockOwner) (pid : Nat)
    (kind : Option FileLockKind) (range : FileLockRange) : Except FileLockOwner (List FileRecordLock) :=
  match kind with
  | some kind =>
    match findLockConflict locks file owner kind range with
    | some conflict => .error conflict.owner
    | none => .ok (pushMergedFileLock (applyFileUnlock file owner range locks) ⟨file, owner, pid, kind, range⟩)
  | none => .ok (applyFileUnlock file owner range locks)

def fileLockConflictPid (conflict : FileRecordLock) : Int :=
  match conflict.owner with
  | .posix _ => (conflict.pid : Int).bmod (2 ^ 32)
  | .ofd _   => -1

def flockFromRecord (lock : FileRecordLock) : UserFlock64 where
  lType := match lock.kind with
    | .read  => F_RDLCK
    | .write => F_WRLCK
  lWhence := 0
  lStart := (lock.range.start : Int).bmod (2 ^ 64)
  lLen := match lock.range.stop with
    | some stop => ((stop - lock.range.start : Nat) : Int).bmod (2 ^ 64)
    | none      => 0
  lPid := fileLockConflictPid lock

def releasePosixLocksForFile (pid : Nat) (file : FileLockKey) (locks : List FileRecordLock) : List FileRecordLock :=
  locks.filter fun lock => !(lock.file = file && lock.owner = .posix pid)

def releaseFileLocksForPid (pid : Nat) (locks : List FileRecordLock) : List FileRecordLock :=
  locks.filter (·.owner ≠ .posix pid)

def releaseFileLocksForOfd (id : Nat) (locks : List FileRecordLock) : List FileRecordLock :=
  locks.filter (·.owner ≠ .ofd id)

def releasePosixLocksForClosedFiles (pid : Nat) (memFsInode : String → Option Nat) (files : List LockDescriptor)
    (locks : List FileRecordLock) : List FileRecordLock :=
  let keys := (files.filterMap (·.lockKey memFsInode)).eraseDups
  keys.foldl (fun locks file => releasePosixLocksForFile pid file locks) locks

inductive FileLockCmd
  | getlk
  | setlk
  | setlkw
  | ofdGetlk
  | ofdSetlk
  | ofdSetlkw
  deriving DecidableEq, Repr

namespace FileLockCmd

def isOfd : FileLockCmd → Bool
  | ofdGetlk | ofdSetlk | ofdSetlkw => true
  | getlk | setlk | setlkw          => false

def blocking : FileLockCmd → Bool
  | setlkw | ofdSetlkw => true
  | getlk | setlk | ofdGetlk | ofdSetlk => false

def isGetlk : FileLockCmd → Bool
  | getlk | ofdGetlk => true
  | setlk | setlkw | ofdSetlk | ofdSetlkw => false

end FileLockCmd

structure FileLockRequest where
  file : FileLockKey
  owner : FileLockOwner
  pid : Nat
  kind : Option FileLockKind
  range : FileLockRange
  deriving DecidableEq, Repr

-- What a call of `fcntl` for record locks reads: the calling process, the descriptor that it names, if it is open,
-- and the request in user memory, if that can be read.
structure FcntlLockCall where
  tgid : Nat
  fd : Option LockDescriptor
  memFsInode : String → Option Nat
  cmd : FileLockCmd
  arg : Option UserFlock64

namespace FcntlLockCall

variable (call : FcntlLockCall)

def ownerAndPid (fileDesc : LockDescriptor) : Except SysErrNo (FileLockOwner × Nat) :=
  if call.cmd.isOfd then
    fileDesc.ofdOwnerId.elim (.error .EINVAL) fun id => .ok (.ofd id, 0)
  else
    .ok (.posix call.tgid, call.tgid)

-- The part of `sys_fcntl_file_lock` before it reads the table of locks.
def request : Except SysErrNo FileLockRequest := do
  let flock ← call.arg.elim (.error .EFAULT) .ok
  let kind ← flockKind flock.lType
  if call.cmd.isOfd && flock.lPid ≠ 0 then .error .EINVAL
  else if call.cmd.isGetlk && kind.isNone then .error .EINVAL
  else
    let fileDesc ← call.fd.elim (.error .EBADF) .ok
    let file ← (fileDesc.lockKey call.memFsInode).elim (.error .EINVAL) .ok
    let range ← flockRange flock fileDesc.lockOffset fileDesc.size
    if !call.cmd.isGetlk && !fileDesc.permits kind then .error .EBADF
    else
      let (owner, pid) ← call.ownerAndPid fileDesc
      return ⟨file, owner, pid, kind, range⟩

end FcntlLockCall

inductive FcntlLockOutcome
  | done
  | report (flock : UserFlock64)
  | failed (err : SysErrNo)
  -- A blocking request that conflicts with a lock of this owner.
  | blocked (owner : FileLockOwner)
  deriving DecidableEq, Repr

def getlkReport (locks : List FileRecordLock) (flock : UserFlock64) (request : FileLockRequest) : UserFlock64 :=
  match request.kind with
  | some kind =>
    match findLockConflict locks request.file request.owner kind request.range with
    | some conflict => flockFromRecord conflict
    | none          => { flock with lType := F_UNLCK }
  | none => { flock with lType := F_UNLCK }

-- What a call does while it holds the table of locks. A blocking call that is woken does the same again.
def FcntlLockCall.attempt (call : FcntlLockCall) (locks : List FileRecordLock) :
    List FileRecordLock × FcntlLockOutcome :=
  match call.arg, call.request with
  | some flock, .ok request =>
    if call.cmd.isGetlk then
      (locks, .report (getlkReport locks flock request))
    else
      match applyFileLock locks request.file request.owner request.pid request.kind request.range with
      | .ok locks    => (locks, .done)
      | .error owner => (locks, if call.cmd.blocking then .blocked owner else .failed .EAGAIN)
  | _, .error err => (locks, .failed err)
  | none, _       => (locks, .failed .EFAULT)

-- Everything that changes the table of locks. `sys_close` and `sys_dup3` release the locks of the process on the file
-- of the descriptor that is closed, `execve` those on the files that it closes. The last descriptor of an open file
-- description releases the locks of the description.
inductive LockTableOp
  | fcntl (call : FcntlLockCall)
  | close (tgid : Nat) (memFsInode : String → Option Nat) (fd : LockDescriptor)
  | closeOnExec (tgid : Nat) (memFsInode : String → Option Nat) (files : List LockDescriptor)
  | dropDescription (id : Nat)
  | exit (pid : Nat)

namespace LockTableOp

def apply (locks : List FileRecordLock) : LockTableOp → List FileRecordLock
  | fcntl call => (call.attempt locks).fst
  | close tgid memFsInode fd =>
    match fd.lockKey memFsInode with
    | some file => releasePosixLocksForFile tgid file locks
    | none      => locks
  | closeOnExec tgid memFsInode files => releasePosixLocksForClosedFiles tgid memFsInode files locks
  | dropDescription id => releaseFileLocksForOfd id locks
  | exit pid           => releaseFileLocksForPid pid locks

-- The table after these steps, in this order.
def run (ops : List LockTableOp) : List FileRecordLock :=
  ops.foldl apply []

end LockTableOp

namespace FileLockRange

def bytes (range : FileLockRange) : Set Nat :=
  { byte | range.start ≤ byte ∧ ∀ stop ∈ range.stop, byte < stop }

instance (range : FileLockRange) (byte : Nat) : Decidable (byte ∈ range.bytes) :=
  inferInstanceAs (Decidable (_ ∧ _))

end FileLockRange

-- What the table means: the kind of lock that an owner holds on a byte of a file.
def holding (locks : List FileRecordLock) (file : FileLockKey) (owner : FileLockOwner) (byte : Nat) :
    Option FileLockKind :=
  locks.find? (fun lock => lock.file = file && lock.owner = owner && byte ∈ lock.range.bytes) |>.map (·.kind)

-- An owner holds a lock of this kind on a byte of a file.
def Holds (locks : List FileRecordLock) (file : FileLockKey) (owner : FileLockOwner) (byte : Nat)
    (kind : FileLockKind) : Prop :=
  ∃ lock ∈ locks, lock.file = file ∧ lock.owner = owner ∧ byte ∈ lock.range.bytes ∧ lock.kind = kind

-- The bytes that a request is about.
def requestedBytes (bounds : Int × Option Int) : Set Nat :=
  { byte | bounds.fst ≤ byte ∧ ∀ stop ∈ bounds.snd, (byte : Int) < stop }

instance (bounds : Int × Option Int) (byte : Nat) : Decidable (byte ∈ requestedBytes bounds) :=
  inferInstanceAs (Decidable (_ ∧ _))

def FileLockCmd.toSetlk : FileLockCmd → FileLockCmd
  | getlk    => setlk
  | ofdGetlk => ofdSetlk
  | cmd      => cmd

namespace FcntlLockCall

def bounds (call : FcntlLockCall) : Option (Int × Option Int) := do
  let flock ← call.arg
  let fileDesc ← call.fd
  (flockBounds flock fileDesc.lockOffset fileDesc.size).toOption

-- Where the bounds of the range are numbers of 64 bits, the casts in `flock_range` keep them.
def Fits (call : FcntlLockCall) : Prop :=
  call.cmd.isGetlk = false → ∀ bounds ∈ call.bounds, bounds.fst < 2 ^ 64 ∧ ∀ stop ∈ bounds.snd, stop < 2 ^ 64

-- The call does what `fcntl` promises for the locks that `locks` stands for.
structure Exact (locks : List FileRecordLock) (call : FcntlLockCall) : Prop where
  granted : (call.attempt locks).snd = .done → ∃ request bounds, call.request = .ok request ∧ call.bounds = some bounds ∧
    ∀ file owner byte, holding (call.attempt locks).fst file owner byte =
      if file = request.file ∧ owner = request.owner ∧ byte ∈ requestedBytes bounds then request.kind
      else holding locks file owner byte
  unchanged : (call.attempt locks).snd ≠ .done → (call.attempt locks).fst = locks
  getlk : call.cmd.isGetlk → ∀ request, { call with cmd := call.cmd.toSetlk }.request = .ok request →
    request.kind.isSome → ∃ report, (call.attempt locks).snd = .report report ∧
      (report.lType ≠ F_UNLCK ↔ ({ call with cmd := call.cmd.toSetlk }.attempt locks).snd = .failed .EAGAIN)

end FcntlLockCall

def LockTableOp.Fits : LockTableOp → Prop
  | fcntl call => call.Fits
  | _          => True

def RecordLocksExclusive (locks : List FileRecordLock) : Prop :=
  ∀ file owner other byte, owner ≠ other → holding locks file owner byte = some .write →
    holding locks file other byte = none

-- The records of one owner and file have no byte in common, and those of the same kind do not even meet.
structure RecordsApart (left right : FileRecordLock) : Prop where
  disjoint : Disjoint left.range.bytes right.range.bytes
  apart : left.kind = right.kind → ∀ byte,
    (byte ∈ left.range.bytes → byte + 1 ∉ right.range.bytes) ∧ (byte ∈ right.range.bytes → byte + 1 ∉ left.range.bytes)

structure RecordsWellFormed (locks : List FileRecordLock) : Prop where
  nonempty : ∀ lock ∈ locks, lock.range.bytes.Nonempty
  apart : locks.Pairwise fun left right => left.file = right.file → left.owner = right.owner → RecordsApart left right

end WllOs
