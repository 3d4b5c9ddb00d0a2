import WllOs.Fs.LockWait

namespace WllOs

def LockDescriptor.withOwner (id : Nat) : LockDescriptor → LockDescriptor
  | memFile name ino offset size readable writable _ => memFile name ino offset size readable writable id
  | ext4Regular ino offset size readable writable _  => ext4Regular ino offset size readable writable id
  | other size readable writable                     => other size readable writable

-- The calls that work with record locks alone.
def LockCall.isRecord : LockCall → Bool
  | fcntl _ | close .. | closeOnExec .. | exit _ => true
  | flock _ | dropDescription _                  => false

namespace LockPc

-- The file and the description of a call of `flock` that a thread is in.
def flocking : LockPc → Option (FileLockKey × Nat)
  | flockUnlock file owner => some (file, owner)
  | flock want _ _ | enroll (.wholeFile want) | recheck (.wholeFile want) _ | asleep (.wholeFile want) _ =>
    some (want.file, want.owner)
  | _ => none

-- The description whose locks a thread is about to drop from the table of `flock`.
def dropping : LockPc → Option Nat
  | dropRecords id | dropWhole id _ => some id
  | _                               => none

end LockPc

-- The table of locks with the descriptors that exist: each value in a table of descriptors, and each clone of one.
structure FlockSystem (τ : Type) where
  locks : LockSystem τ
  fds : List LockDescriptor
  nextOpenFileDescriptionId : Nat

inductive FlockAct
  | openFile (fd : LockDescriptor)
  | dup (i : Nat)
  | close (i : Nat)
  | flock (i : Nat) (operation : BitVec 64) (memFsInode : String → Option Nat)
  | record (call : LockCall)
  | run
  | interrupt (err : SysErrNo)

namespace FlockSystem

variable {τ : Type} [DecidableEq τ]

def initial : FlockSystem τ :=
  ⟨.initial, [], 1⟩

def isOpen (s : FlockSystem τ) (id : Nat) : Bool :=
  s.fds.any (·.ofdOwnerId = some id)

def lockStep (s : FlockSystem τ) (t : τ) (act : LockAct) : Option (FlockSystem τ) :=
  (s.locks.step t act).map fun locks => { s with locks }

def step (s : FlockSystem τ) (t : τ) : FlockAct → Option (FlockSystem τ)
  | .openFile fd => some {
      s with
      fds := s.fds ++ [fd.withOwner s.nextOpenFileDescriptionId]
      nextOpenFileDescriptionId := s.nextOpenFileDescriptionId + 1
    }
  | .dup i => s.fds[i]?.map fun fd => { s with fds := s.fds ++ [fd] }
  -- The last descriptor takes the owner with it, whose `drop` releases the locks.
  | .close i => do
    let fd ← s.fds[i]?
    let s := { s with fds := s.fds.eraseIdx i }
    match fd.ofdOwnerId with
    | none    => some s
    | some id => if s.isOpen id then some s else s.lockStep t (.start (.dropDescription id))
  | .flock i operation memFsInode => s.lockStep t (.start (.flock ⟨operation, s.fds[i]?, memFsInode⟩))
  | .record call   => if call.isRecord then s.lockStep t (.start call) else none
  | .run           => s.lockStep t .run
  | .interrupt err => s.lockStep t (.interrupt err)

-- The states that steps which satisfy `p` reach.
inductive Reachable (p : FlockSystem τ → τ → FlockAct → Prop) : FlockSystem τ → Prop
  | initial : Reachable p initial
  | step {s s' : FlockSystem τ} {t : τ} {act : FlockAct} : Reachable p s → p s t act → s.step t act = some s' →
      Reachable p s'

def run (s : FlockSystem τ) : List (τ × FlockAct) → Option (FlockSystem τ)
  | []                => some s
  | (t, act) :: steps => (s.step t act).bind (run · steps)

def holders (s : FlockSystem τ) (file : FileLockKey) : List WholeFileLock :=
  s.locks.wholeFile.filter (·.file = file)

-- The locks of a description on a file, and all others.
def held (s : FlockSystem τ) (file : FileLockKey) (owner : Nat) : List WholeFileLock :=
  s.locks.wholeFile.filter (·.isOf file owner)

def others (s : FlockSystem τ) (file : FileLockKey) (owner : Nat) : List WholeFileLock :=
  s.locks.wholeFile.filter (!·.isOf file owner)

-- A description that is open, or whose locks are still to be released.
def Alive (s : FlockSystem τ) (id : Nat) : Prop :=
  s.isOpen id ∨ ∃ t, (s.locks.pc t).dropping = some id

-- A request that is granted after a sleep finds that its description, which is open, has no lock on the file. One
-- that is refused drops no lock while a task sleeps in a request for the file.
structure KeepsFlock (s : FlockSystem τ) (t : τ) (act : FlockAct) : Prop where
  granted : ∀ want nonblock released, act = .run → s.locks.pc t = .flock want nonblock released →
    s.locks.conflicts (.wholeFile want) = false →
      s.Alive want.owner ∧ (released → s.held want.file want.owner = [])
  refused : ∀ want nonblock, act = .run → s.locks.pc t = .flock want nonblock false →
    s.locks.conflicts (.wholeFile want) → s.held want.file want.owner ≠ [] →
      ∀ t' wait, s.locks.pc t' = .asleep wait false → wait.file ≠ want.file

-- What `flock` promises in a state, and for the steps from it that `p` admits.
structure Exact (p : FlockSystem τ → τ → FlockAct → Prop) (s : FlockSystem τ) : Prop where
  shared : ∀ file, (∀ lock ∈ s.holders file, lock.kind = .read) ∨ ∃ lock, s.holders file = [lock]
  single : ∀ file, ((s.holders file).map (·.owner)).Nodup
  granted : ∀ t want nonblock released s', p s t .run → s.step t .run = some s' →
    s.locks.pc t = .flock want nonblock released → s.locks.conflicts (.wholeFile want) = false →
      s'.locks.pc t = .idle ∧ s'.held want.file want.owner = [want]
  unlocked : ∀ t file owner s', s.step t .run = some s' → s.locks.pc t = .flockUnlock file owner →
    s'.held file owner = []
  -- The steps of a call, those that fail too, leave the locks of other descriptions alone.
  others : ∀ t file owner s', s.step t .run = some s' → (s.locks.pc t).flocking = some (file, owner) →
    s'.others file owner = s.others file owner
  failed : ∀ t act s', s.step t act = some s' → act ≠ .run → s'.locks.wholeFile = s.locks.wholeFile
  -- No waiter of the file stays asleep when a call that is refused has dropped its lock.
  dropped : ∀ t want nonblock s', p s t .run → s.step t .run = some s' → s.locks.pc t = .flock want nonblock false →
    s.locks.conflicts (.wholeFile want) → s.held want.file want.owner ≠ [] →
      ∀ t' wait, s'.locks.pc t' = .asleep wait false → wait.file ≠ want.file
  duplicate : ∀ t i s', s.step t (.dup i) = some s' → s'.locks = s.locks ∧
    s'.fds[s.fds.length]? = s'.fds[i]? ∧ s'.fds[i]? = s.fds[i]?
  -- Locks go with a call of `flock` by their own description, or after its last descriptor was closed.
  kept : ∀ t act s', s.step t act = some s' → ∀ lock ∈ s.locks.wholeFile, lock ∉ s'.locks.wholeFile →
    (s.locks.pc t).flocking = some (lock.file, lock.owner) ∨ s.isOpen lock.owner = false
  released : ∀ lock ∈ s.locks.wholeFile, s.Alive lock.owner

end FlockSystem

end WllOs
