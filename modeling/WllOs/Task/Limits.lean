import WllOs.Task.Exec

namespace WllOs

def RLIMIT_FSIZE : Nat := 1
def RLIMIT_STACK : Nat := 3
def RLIMIT_CORE : Nat := 4
def RLIMIT_NOFILE : Nat := 7
def DEFAULT_STACK_LIMIT : Nat := 256 * 1024

structure RLimit where
  rlimCur : Nat
  rlimMax : Nat
  deriving DecidableEq, Repr

-- The limits in the record of a task.
structure TaskLimits where
  rlimitNofile : Nat
  rlimitNofileMax : Nat
  rlimitFsize : Nat
  rlimitFsizeMax : Nat
  rlimitCore : Nat
  rlimitCoreMax : Nat
  deriving DecidableEq, Repr

-- What the memory of the caller says to a limit that is read from an address, and to one that is written there.
structure UserLimits where
  copyFromUser : Nat → Except SysErrNo RLimit
  copyToUser : Nat → Except SysErrNo Unit

namespace TaskLimits

-- The limits of a task that the kernel makes.
def new : TaskLimits where
  rlimitNofile    := MAX_FD_NUM
  rlimitNofileMax := MAX_FD_NUM
  rlimitFsize     := Usize.max
  rlimitFsizeMax  := Usize.max
  rlimitCore      := 0
  rlimitCoreMax   := 0

variable (limits : TaskLimits) (user : UserLimits)

def resourceLimitSnapshot (resource : Nat) : RLimit :=
  if resource = RLIMIT_STACK then
    ⟨DEFAULT_STACK_LIMIT, DEFAULT_STACK_LIMIT⟩
  else if resource = RLIMIT_NOFILE then
    ⟨limits.rlimitNofile, limits.rlimitNofileMax⟩
  else if resource = RLIMIT_FSIZE then
    ⟨limits.rlimitFsize, limits.rlimitFsizeMax⟩
  else if resource = RLIMIT_CORE then
    ⟨limits.rlimitCore, limits.rlimitCoreMax⟩
  else
    ⟨Usize.max, Usize.max⟩

def applyResourceLimit (resource limitPtr : Nat) : Except SysErrNo TaskLimits :=
  if limitPtr = 0 then
    .error .EFAULT
  else do
    let limit ← user.copyFromUser limitPtr
    if limit.rlimCur > limit.rlimMax then
      .error .EINVAL
    else if resource = RLIMIT_STACK then
      .ok limits
    else if resource = RLIMIT_FSIZE then
      .ok { limits with rlimitFsize := limit.rlimCur, rlimitFsizeMax := limit.rlimMax }
    else if resource = RLIMIT_CORE then
      .ok { limits with rlimitCore := limit.rlimCur, rlimitCoreMax := limit.rlimMax }
    else if resource ≠ RLIMIT_NOFILE then
      .ok limits
    else
      let hard := min limit.rlimMax MAX_FD_NUM
      let soft := min limit.rlimCur hard
      .ok { limits with rlimitNofile := soft, rlimitNofileMax := hard }

-- A call that succeeds gives the limit that it has written to the memory of the caller.
def sysGetrlimit (resource oldLimit : Nat) : Except SysErrNo RLimit :=
  if oldLimit = 0 then
    .error .EFAULT
  else do
    user.copyToUser oldLimit
    return limits.resourceLimitSnapshot resource

def sysSetrlimit (resource newLimit : Nat) : Except SysErrNo Unit × TaskLimits :=
  match limits.applyResourceLimit user resource newLimit with
  | .error error => (.error error, limits)
  | .ok limits   => (.ok (), limits)

-- The call of a task with the given identifiers. The new limit stays when the old one cannot be written.
def sysPrlimit64 (self tgid pid resource newLimit oldLimit : Nat) :
    Except SysErrNo (Option RLimit) × TaskLimits :=
  if pid ≠ 0 ∧ pid ≠ self ∧ pid ≠ tgid then
    (.error .ESRCH, limits)
  else
    let old := if oldLimit ≠ 0 then some (limits.resourceLimitSnapshot resource) else none
    let applied := if newLimit ≠ 0 then limits.applyResourceLimit user resource newLimit else .ok limits
    match applied with
    | .error error => (.error error, limits)
    | .ok limits   =>
      match old with
      | none     => (.ok none, limits)
      | some old => ((user.copyToUser oldLimit).map fun _ => some old, limits)

end TaskLimits

-- The limits that the tasks have, by the identifiers of the tasks.
structure LimitSystem (φ : Type) where
  procs : ProcSystem φ
  limits : Nat → TaskLimits

namespace LimitSystem

open Function (update)

variable {φ : Type}

inductive Event (φ : Type)
  | setrlimit (user : UserLimits) (resource newLimit : Nat)
  | prlimit64 (user : UserLimits) (pid resource newLimit oldLimit : Nat)
  | proc (event : ProcSystem.Event φ)

-- The child of a clone gets the limits of the task that makes it, be it a thread or a process.
def inheritLimits (system : LimitSystem φ) (pid : Nat) (task : ProcTask) : ProcSystem.Event φ → Nat → TaskLimits
  | .clone flags child written =>
    match (system.procs.sysClone task flags child written).fst with
    | .error _  => system.limits
    | .ok child => update system.limits child (system.limits pid)
  | _ => system.limits

def apply (system : LimitSystem φ) (arch : Arch) (pid : Nat) (task : ProcTask) : Event φ → LimitSystem φ
  | .setrlimit user resource newLimit =>
    let (_, limits) := (system.limits pid).sysSetrlimit user resource newLimit
    { system with limits := update system.limits pid limits }
  | .prlimit64 user target resource newLimit oldLimit =>
    let (_, limits) := (system.limits pid).sysPrlimit64 user pid task.tgid target resource newLimit oldLimit
    { system with limits := update system.limits pid limits }
  | .proc event =>
    { procs := system.procs.apply arch pid task event, limits := system.inheritLimits pid task event }

def spawn (system : LimitSystem φ) (pid : Nat) (space : AddressSpace) (stdin stdout stderr : φ) : LimitSystem φ where
  procs := system.procs.spawn pid space stdin stdout stderr
  limits := update system.limits pid .new

def Event.Valid (system : LimitSystem φ) : Event φ → Prop
  | proc event => event.Valid system.procs
  | _          => True

-- What the limits of a task come from: the requests that it was granted, and the way it was made.
inductive Entry
  | granted (pid resource : Nat) (limit : RLimit)
  | cloned (pid child : Nat)
  | spawned (pid : Nat)

end LimitSystem

namespace RLimit

-- The table of descriptors has a fixed number of slots.
def capped (limit : RLimit) (resource : Nat) : RLimit :=
  if resource = RLIMIT_NOFILE then ⟨min limit.rlimCur MAX_FD_NUM, min limit.rlimMax MAX_FD_NUM⟩ else limit

-- The limit that a request asks for, if it is one that can be granted.
def requested (user : UserLimits) (newLimit : Nat) : Option RLimit :=
  if newLimit = 0 then none
  else (user.copyFromUser newLimit).toOption.filter fun limit => limit.rlimCur ≤ limit.rlimMax

end RLimit

namespace LimitSystem

variable {φ : Type}

def Event.granted (pid : Nat) (task : ProcTask) : Event φ → Option (Nat × RLimit)
  | setrlimit user resource newLimit          => (RLimit.requested user newLimit).map (resource, ·)
  | prlimit64 user target resource newLimit _ =>
    if target = 0 ∨ target = pid ∨ target = task.tgid then
      (RLimit.requested user newLimit).map (resource, ·)
    else
      none
  | proc _ => none

def entries (system : LimitSystem φ) (pid : Nat) (task : ProcTask) : Event φ → List Entry
  | .proc (.clone flags child written) =>
    match (system.procs.sysClone task flags child written).fst with
    | .error _  => []
    | .ok child => [.cloned pid child]
  | event => ((event.granted pid task).map fun (resource, limit) => .granted pid resource limit).toList

-- The limit that a history, from the last entry back to the first, gives a task: the last one that it was granted, or
-- else the one that its parent had when it was made.
def inForce (resource : Nat) : List Entry → Nat → Option RLimit
  | [], _ => none
  | .granted owner of limit :: history, pid =>
    if owner = pid ∧ of = resource then some (limit.capped resource) else inForce resource history pid
  | .cloned parent child :: history, pid =>
    if child = pid then inForce resource history parent else inForce resource history pid
  | .spawned made :: history, pid =>
    if made = pid then some (TaskLimits.new.resourceLimitSnapshot resource) else inForce resource history pid

inductive Reachable (arch : Arch) (allowed : LimitSystem φ → Nat → ProcTask → Event φ → Prop) :
    LimitSystem φ → List Entry → Prop
  | boot {system : LimitSystem φ} : (∀ pid, system.procs.tasks pid = none) → Reachable arch allowed system []
  | spawn {system : LimitSystem φ} {history : List Entry} {pid : Nat} {space : AddressSpace} {stdin stdout stderr : φ} :
      Reachable arch allowed system history → system.procs.Free pid →
      Reachable arch allowed (system.spawn pid space stdin stdout stderr) (.spawned pid :: history)
  | step {system : LimitSystem φ} {history : List Entry} {pid : Nat} {task : ProcTask} (event : Event φ) :
      Reachable arch allowed system history → system.procs.tasks pid = some task → event.Valid system →
      allowed system pid task event →
      Reachable arch allowed (system.apply arch pid task event) (system.entries pid task event ++ history)

-- The resources whose limits a task keeps.
def Kept (resource : Nat) : Prop :=
  resource = RLIMIT_NOFILE ∨ resource = RLIMIT_FSIZE ∨ resource = RLIMIT_CORE

-- What holds of the limits of a task, given the history of the system.
structure LimitsHold (history : List Entry) (pid : Nat) (limits : TaskLimits) : Prop where
  ordered : ∀ resource,
    (limits.resourceLimitSnapshot resource).rlimCur ≤ (limits.resourceLimitSnapshot resource).rlimMax
  nofile : limits.rlimitNofileMax ≤ MAX_FD_NUM
  kept : ∀ resource, Kept resource → inForce resource history pid = some (limits.resourceLimitSnapshot resource)

-- What the calls of a task with given limits answer, whatever these limits are.
structure CallsAnswer (self tgid : Nat) (limits : TaskLimits) : Prop where
  getrlimit : ∀ user resource oldLimit limit, limits.sysGetrlimit user resource oldLimit = .ok limit →
    limit = limits.resourceLimitSnapshot resource
  setrlimit : ∀ user resource newLimit,
    (limits.sysSetrlimit user resource newLimit).fst = .ok () ↔ (RLimit.requested user newLimit).isSome
  prlimit64 : ∀ user pid resource newLimit oldLimit limit,
    (limits.sysPrlimit64 user self tgid pid resource newLimit oldLimit).fst = .ok (some limit) →
    limit = limits.resourceLimitSnapshot resource

-- The tasks of a thread group have the same limits.
def ThreadsAgree (system : LimitSystem φ) : Prop :=
  ∀ pid other task task', system.procs.tasks pid = some task → system.procs.tasks other = some task' →
    task.tgid = task'.tgid → system.limits pid = system.limits other

-- Limits are set only by a task that is the only one of its thread group.
def SetsAlone (system : LimitSystem φ) (pid : Nat) (task : ProcTask) (event : Event φ) : Prop :=
  event.granted pid task ≠ none → ∀ other task', system.procs.tasks other = some task' → task'.tgid = task.tgid →
    other = pid

-- No step lets a task that stays raise one of its hard limits.
def NeverRaises (system : LimitSystem φ) (arch : Arch) : Prop :=
  ∀ pid task event resource, system.procs.tasks pid = some task → event.Valid system → Kept resource →
    (((system.apply arch pid task event).limits pid).resourceLimitSnapshot resource).rlimMax ≤
      ((system.limits pid).resourceLimitSnapshot resource).rlimMax

end LimitSystem

end WllOs
