import WllOs.Fs.RecordLock
import WllOs.Task.Wait

namespace WllOs

structure FileLockWaiter where
  waiter : FileLockOwner
  waitingFor : FileLockOwner
  deriving DecidableEq, Repr

structure WholeFileLock where
  file : FileLockKey
  owner : Nat
  kind : FileLockKind
  deriving DecidableEq, Repr

def WholeFileLock.isOf (file : FileLockKey) (owner : Nat) (lock : WholeFileLock) : Bool :=
  lock.file = file && lock.owner = owner

def fileLockHashBytes (hash : BitVec 64) (bytes : List UInt8) : BitVec 64 :=
  bytes.foldl (fun hash byte => (hash ^^^ byte.toBitVec.zeroExtend 64) * 0x100000001b3) hash

-- The bytes of a number, the lowest first.
def toNeBytes (size value : Nat) : List UInt8 :=
  (List.range size).map fun i => UInt8.ofNat (value / 256 ^ i)

def fileLockWaitKey (file : FileLockKey) : WaitKey :=
  let hash := match file with
    | .memInode ino => fileLockHashBytes 0xcbf29ce484222325 (toNeBytes 8 ino)
    | .memPath name => fileLockHashBytes 0x9ce484222325cbf2 name.toUTF8.toList
    | .ext4 ino     => fileLockHashBytes 0x84222325cbf29ce4 (toNeBytes 4 ino)
  ⟨hash.toNat, 0x464c4f43⟩

def removeLockWaiter (owner : FileLockOwner) (waiters : List FileLockWaiter) : List FileLockWaiter :=
  waiters.filter (·.waiter ≠ owner)

def setLockWaiter (waiter waitingFor : FileLockOwner) : List FileLockWaiter → List FileLockWaiter
  | []               => [⟨waiter, waitingFor⟩]
  | entry :: waiters =>
    if entry.waiter = waiter then { entry with waitingFor } :: waiters
    else entry :: setLockWaiter waiter waitingFor waiters

-- The owner that the first entry of an owner names.
def waitsFor (waiters : List FileLockWaiter) (owner : FileLockOwner) : Option FileLockOwner :=
  waiters.find? (·.waiter = owner) |>.map (·.waitingFor)

def fileLockWouldDeadlock (waiters : List FileLockWaiter) (waiter waitingFor : FileLockOwner) : Bool :=
  waiter = waitingFor || go (waiters.length + 1) waitingFor
where
  go : Nat → FileLockOwner → Bool
    | 0, _ => false
    | depth + 1, owner =>
      owner = waiter || match waitsFor waiters owner with
        | some next => go depth next
        | none      => false

def wholeFileLockConflicts (locks : List WholeFileLock) (file : FileLockKey) (owner : Nat) (kind : FileLockKind) :
    Bool :=
  locks.any fun lock => lock.file = file && lock.owner ≠ owner && lock.kind.conflict kind

def LOCK_SH : BitVec 64 := 1

def LOCK_EX : BitVec 64 := 2

def LOCK_NB : BitVec 64 := 4

def LOCK_UN : BitVec 64 := 8

structure FlockCall where
  operation : BitVec 64
  fd : Option LockDescriptor
  memFsInode : String → Option Nat

-- The part of `sys_flock` before it reads the table of locks. A call without a kind unlocks the file.
def FlockCall.request (call : FlockCall) : Except SysErrNo (FileLockKey × Nat × Option FileLockKind × Bool) :=
  if call.operation &&& ~~~(LOCK_SH ||| LOCK_EX ||| LOCK_NB ||| LOCK_UN) ≠ 0 then .error .EINVAL
  else do
    let operation := call.operation &&& ~~~LOCK_NB
    let kind ←
      if operation = LOCK_SH then .ok (some .read)
      else if operation = LOCK_EX then .ok (some .write)
      else if operation = LOCK_UN then .ok none
      else .error .EINVAL
    let fileDesc ← call.fd.elim (.error .EBADF) .ok
    let file ← (fileDesc.lockKey call.memFsInode).elim (.error .EINVAL) .ok
    let owner ← fileDesc.ofdOwnerId.elim (.error .EINVAL) .ok
    return (file, owner, kind, call.operation &&& LOCK_NB ≠ 0)

-- What a blocking call waits for: that no lock conflicts with the one that it wants.
inductive LockWait
  | record (want : FileRecordLock)
  | wholeFile (want : WholeFileLock)
  deriving DecidableEq, Repr

def LockWait.file : LockWait → FileLockKey
  | record want    => want.file
  | wholeFile want => want.file

-- Where a thread is in a call that is about file locks. `wakes` are the files whose waiters the call has still to
-- wake, and `rest` are the files whose locks it has still to release, each with the process that held them.
inductive LockPc
  | idle
  -- `sys_fcntl_file_lock`
  | unlock (file : FileLockKey) (owner : FileLockOwner) (range : FileLockRange)
  | attempt (want : FileRecordLock) (blocking : Bool)
  | judge (want : FileRecordLock) (conflictOwner : FileLockOwner)
  | register (want : FileRecordLock) (conflictOwner : FileLockOwner)
  -- `sys_flock`
  | flockUnlock (file : FileLockKey) (owner : Nat)
  | flock (want : WholeFileLock) (nonblock releasedPrevious : Bool)
  -- `sleep_on_io_key_if`: enter the queue, evaluate the condition, sleep. A wake reaches every task in the queue.
  | enroll (wait : LockWait)
  | recheck (wait : LockWait) (woken : Bool)
  | asleep (wait : LockWait) (woken : Bool)
  -- The release of locks by `close`, `dup3` and `execve`, by the exit of a process and by the last descriptor of an
  -- open file description.
  | release (rest : List (Nat × FileLockKey))
  | exit (pid : Nat)
  | dropRecords (id : Nat)
  | dropWhole (id : Nat) (files : List FileLockKey)
  -- `remove_lock_waiter` and the wakes at the end of a call.
  | forget (owner : FileLockOwner) (wakes : List FileLockKey) (rest : List (Nat × FileLockKey))
  | wake (wakes : List FileLockKey) (rest : List (Nat × FileLockKey))
  deriving DecidableEq, Repr

inductive LockCall
  | fcntl (call : FcntlLockCall)
  | flock (call : FlockCall)
  | close (tgid : Nat) (memFsInode : String → Option Nat) (fd : LockDescriptor)
  | closeOnExec (tgid : Nat) (memFsInode : String → Option Nat) (files : List LockDescriptor)
  | dropDescription (id : Nat)
  | exit (pid : Nat)

-- Where a call begins. A call that fails before it reads a table, or that only reads one, is over at once.
def LockCall.entry : LockCall → LockPc
  | fcntl call =>
    match call.request with
    | .error _ => .idle
    | .ok request =>
      if call.cmd.isGetlk then .idle
      else match request.kind with
        | none      => .unlock request.file request.owner request.range
        | some kind => .attempt ⟨request.file, request.owner, request.pid, kind, request.range⟩ call.cmd.blocking
  | flock call =>
    match call.request with
    | .error _ => .idle
    | .ok (file, owner, none, _)             => .flockUnlock file owner
    | .ok (file, owner, some kind, nonblock) => .flock ⟨file, owner, kind⟩ nonblock false
  | close tgid memFsInode fd => .release ((fd.lockKey memFsInode).toList.map (tgid, ·))
  | closeOnExec tgid memFsInode files => .release ((files.filterMap (·.lockKey memFsInode)).eraseDups.map (tgid, ·))
  | dropDescription id => .dropRecords id
  | exit pid           => .exit pid

namespace LockPc

-- A call that has slept goes back to the head of its loop.
def retry : LockWait → LockPc
  | .record want    => .attempt want true
  | .wholeFile want => .flock want false true

def wakeFor (file : FileLockKey) : LockPc → LockPc
  | recheck wait woken => recheck wait (woken || fileLockWaitKey wait.file = fileLockWaitKey file)
  | asleep wait woken  => asleep wait (woken || fileLockWaitKey wait.file = fileLockWaitKey file)
  | pc                 => pc

-- The files whose waiters the call has still to wake.
def owed : LockPc → List FileLockKey
  | dropWhole _ files | forget _ files _ | wake files _ => files
  | _                                                  => []

end LockPc

-- The tables of locks and of waiters, and the threads that use them. Each step of a thread holds one of the tables.
structure LockSystem (τ : Type) where
  records : List FileRecordLock
  waiters : List FileLockWaiter
  wholeFile : List WholeFileLock
  pc : τ → LockPc

inductive LockAct
  | start (call : LockCall)
  | run
  -- A signal ends a sleep. The call fails with `ERESTARTSYS` or with another error.
  | interrupt (err : SysErrNo)

namespace LockSystem

variable {τ : Type} [DecidableEq τ]

def initial : LockSystem τ :=
  ⟨[], [], [], fun _ => .idle⟩

def conflicts (s : LockSystem τ) : LockWait → Bool
  | .record want    => (findLockConflict s.records want.file want.owner want.kind want.range).isSome
  | .wholeFile want => wholeFileLockConflicts s.wholeFile want.file want.owner want.kind

def goto (s : LockSystem τ) (t : τ) (pc : LockPc) : LockSystem τ :=
  { s with pc := Function.update s.pc t pc }

-- The next step of a thread in a call. A thread that sleeps has none until it is woken.
def advance (s : LockSystem τ) (t : τ) : LockPc → Option (LockSystem τ)
  | .idle => none
  | .unlock file owner range =>
    some <| { s with records := applyFileUnlock file owner range s.records }.goto t (.forget owner [file] [])
  | .attempt want blocking =>
    match applyFileLock s.records want.file want.owner want.pid (some want.kind) want.range with
    | .ok records => some <| { s with records }.goto t (.forget want.owner [] [])
    | .error conflictOwner =>
      if !blocking then some <| s.goto t (.forget want.owner [] [])
      else match want.owner with
        | .posix _ => some <| s.goto t (.judge want conflictOwner)
        | .ofd _   => some <| s.goto t (.enroll (.record want))
  -- The branch that is taken if the request would close a cycle is the one that fails with `EDEADLK`.
  | .judge want conflictOwner =>
    if fileLockWouldDeadlock s.waiters want.owner conflictOwner then some <| s.goto t (.forget want.owner [] [])
    else some <| s.goto t (.register want conflictOwner)
  | .register want conflictOwner =>
    some <| { s with waiters := setLockWaiter want.owner conflictOwner s.waiters }.goto t (.enroll (.record want))
  | .flockUnlock file owner =>
    let removed := s.wholeFile.any (·.isOf file owner)
    some <| { s with wholeFile := s.wholeFile.filter (!·.isOf file owner) }.goto t (.wake (if removed then [file] else []) [])
  | .flock want nonblock releasedPrevious =>
    let locks := if releasedPrevious then s.wholeFile
      else s.wholeFile.filter (!·.isOf want.file want.owner)
    if !wholeFileLockConflicts locks want.file want.owner want.kind then
      some <| { s with wholeFile := locks ++ [want] }.goto t .idle
    else
      some <| { s with wholeFile := locks }.goto t (if nonblock then .idle else .enroll (.wholeFile want))
  | .enroll wait => some <| s.goto t (.recheck wait false)
  | .recheck wait woken => some <| s.goto t (if s.conflicts wait then .asleep wait woken else .retry wait)
  | .asleep wait woken => if woken then some <| s.goto t (.retry wait) else none
  | .release [] => some <| s.goto t .idle
  | .release ((pid, file) :: rest) =>
    let removed := s.records.any fun lock => lock.file = file && lock.owner = .posix pid
    some <| { s with records := releasePosixLocksForFile pid file s.records }.goto t
      (.forget (.posix pid) (if removed then [file] else []) rest)
  | .exit pid =>
    let files := (s.records.filter (·.owner = .posix pid)).map (·.file)
    some <| { s with records := releaseFileLocksForPid pid s.records }.goto t (.forget (.posix pid) files [])
  | .dropRecords id =>
    let files := (s.records.filter (·.owner = .ofd id)).map (·.file)
    some <| { s with records := releaseFileLocksForOfd id s.records }.goto t (.dropWhole id files.eraseDups)
  | .dropWhole id files =>
    let files := files ++ (s.wholeFile.filter (·.owner = id)).map (·.file)
    some <| { s with wholeFile := s.wholeFile.filter (·.owner ≠ id) }.goto t (.forget (.ofd id) files.eraseDups [])
  | .forget owner wakes rest =>
    some <| { s with waiters := removeLockWaiter owner s.waiters }.goto t (.wake wakes rest)
  | .wake [] rest => some <| s.goto t (.release rest)
  | .wake (file :: wakes) rest => some <| { s with pc := fun t => (s.pc t).wakeFor file }.goto t (.wake wakes rest)

def fail (s : LockSystem τ) (t : τ) (err : SysErrNo) : LockWait → LockSystem τ
  | .record want => s.goto t (if err = .ERESTARTSYS then .idle else .forget want.owner [] [])
  | .wholeFile _ => s.goto t .idle

def step (s : LockSystem τ) (t : τ) : LockAct → Option (LockSystem τ)
  | .start call => if s.pc t = .idle then some (s.goto t call.entry) else none
  | .run        => s.advance t (s.pc t)
  | .interrupt err =>
    match s.pc t with
    | .enroll wait | .recheck wait _ | .asleep wait _ => some (s.fail t err wait)
    | _                                               => none

-- The states that steps which satisfy `p` reach.
inductive Reachable (p : LockSystem τ → τ → LockAct → Prop) : LockSystem τ → Prop
  | initial : Reachable p initial
  | step {s s' : LockSystem τ} {t : τ} {act : LockAct} : Reachable p s → p s t act → s.step t act = some s' →
      Reachable p s'

def run (s : LockSystem τ) : List (τ × LockAct) → Option (LockSystem τ)
  | []                => some s
  | (t, act) :: steps => (s.step t act).bind (run · steps)

end LockSystem

def LockAct.Fits : LockAct → Prop
  | start (.fcntl call) => call.Fits
  | _                   => True

namespace LockSystem

variable {τ : Type} [DecidableEq τ]

-- A step that leaves its owner with less than it had of the locks on a file, in a call that locks it: a record lock
-- for reading that is granted over one for writing, and a conversion of a whole-file lock that is refused, or that
-- is granted for reading instead of writing.
def Weakens (s : LockSystem τ) (file : FileLockKey) : LockPc → Prop
  | .attempt want _ => want.file = file ∧ s.conflicts (.record want) = false ∧ want.kind = .read ∧
      ∃ lock ∈ s.records, lock.affected want.file want.owner want.range ∧ lock.kind = .write
  | .flock want _ false => want.file = file ∧ ∃ lock ∈ s.wholeFile, lock.isOf want.file want.owner ∧
      (s.conflicts (.wholeFile want) ∨ want.kind = .read ∧ lock.kind = .write)
  | _ => False

-- Locks are weakened in this way only while no task sleeps in a request for their file.
def KeepsLocks (s : LockSystem τ) (t : τ) (act : LockAct) : Prop :=
  act.Fits ∧ ∀ file, act = .run → s.Weakens file (s.pc t) → ∀ t' wait, s.pc t' = .asleep wait false → wait.file ≠ file

-- The waiters of a file are woken when a step makes their requests grantable.
structure Notified (s : LockSystem τ) : Prop where
  asleep : ∀ t wait, s.pc t = .asleep wait false → s.conflicts wait ∨ ∃ t', wait.file ∈ (s.pc t').owed
  -- The call whose step makes a request grantable has the wake of its file before it, in the state `s'` after.
  grants : ∀ t act s', s.KeepsLocks t act → s.step t act = some s' → ∀ t' wait, s.pc t' = .asleep wait false →
    s.conflicts wait → s'.conflicts wait = false → wait.file ∈ (s'.pc t).owed
  -- A call keeps such a wake before it until it makes it. A thread that is idle has none.
  owed : ∀ t act s' file, s.step t act = some s' → file ∈ (s.pc t).owed →
    file ∈ (s'.pc t).owed ∨ ∀ t' wait, s'.pc t' = .asleep wait false → wait.file ≠ file

end LockSystem

end WllOs

namespace WllOs

def FileLockOwner.IsPosix : FileLockOwner → Prop
  | posix _ => True
  | ofd _   => False

instance : DecidablePred FileLockOwner.IsPosix := fun owner =>
  match owner with
  | .posix _ => .isTrue trivial
  | .ofd _   => .isFalse id

namespace LockSystem

open Relation

variable {τ : Type} [DecidableEq τ]

-- Another owner holds a byte of the range that a request is about, in a kind that conflicts.
def Blocks (s : LockSystem τ) (want : FileRecordLock) (owner : FileLockOwner) : Prop :=
  owner ≠ want.owner ∧ ∃ byte kind, byte ∈ want.range.bytes ∧ Holds s.records want.file owner byte kind ∧
    kind.conflict want.kind

-- A task of the first process is asleep in `F_SETLKW` on a range that the second process holds.
def WaitsOn (s : LockSystem τ) (owner other : FileLockOwner) : Prop :=
  owner.IsPosix ∧ other.IsPosix ∧ ∃ t want, s.pc t = .asleep (.record want) false ∧ want.owner = owner ∧
    s.Blocks want other

-- No thread but possibly `t` is asleep in a request of the owner.
def Unawaited (s : LockSystem τ) (owner : FileLockOwner) : Prop :=
  ∀ t want, s.pc t = .asleep (.record want) false → want.owner ≠ owner

-- The conditions under which the table of waiters tells who waits for whom: a request is judged while no other thread
-- is between that and its registration, the owner it was refused for still blocks it, and all entries of the table are
-- true; a thread falls asleep when its entry names the only process that blocks it, and no other process comes to
-- block it; and the entry of a process is not removed or replaced while a task of the process sleeps.
def TracksWaits (s : LockSystem τ) (t : τ) (act : LockAct) : Prop :=
  act.Fits ∧ (act = .run →
    match s.pc t with
    | .judge want conflictOwner =>
      (∀ t' want' owner, s.pc t' ≠ .register want' owner) ∧ s.Blocks want conflictOwner ∧
        ∀ owner other, other.IsPosix → waitsFor s.waiters owner = some other → s.WaitsOn owner other
    | .recheck (.record want) _ => ∀ owner, want.owner.IsPosix → owner.IsPosix → s.Blocks want owner →
        waitsFor s.waiters want.owner = some owner
    | .attempt want _ => s.conflicts (.record want) = false → ∀ t' want', s.pc t' = .asleep (.record want') false →
        want'.owner.IsPosix → want.owner.IsPosix → want'.owner ≠ want.owner → want'.file = want.file →
        want'.range.overlap want.range → want.kind.conflict want'.kind →
        waitsFor s.waiters want'.owner = some want.owner
    | .register want _ => s.Unawaited want.owner
    | .forget owner _ _ => s.Unawaited owner
    | _ => True)

structure DeadlockFree (s : LockSystem τ) : Prop where
  noCycle : ∀ owner, ¬ TransGen s.WaitsOn owner owner
  -- The request that fails with `EDEADLK` is blocked by a process that waits, through others, for its own.
  justified : ∀ t want conflictOwner, s.pc t = .judge want conflictOwner → s.TracksWaits t .run →
    fileLockWouldDeadlock s.waiters want.owner conflictOwner → ∃ other, s.Blocks want other ∧
      TransGen s.WaitsOn other want.owner

end LockSystem

end WllOs
