import WllOs.Library.Concurrent
import WllOs.Mm.Basic

namespace WllOs

inductive TaskStatus
  | ready
  | running
  | zombie
  | blocked
  | stopped
  deriving DecidableEq, Repr

inductive BlockReason
  | io
  | pipeFdReady
  | poll
  | childExit
  | timer
  | futex
  | signal
  deriving DecidableEq, Repr

inductive WaitOutcome
  | woken
  | timedOut
  | interrupted
  deriving DecidableEq, Repr

-- A wait in a queue returns its outcome, and a wait on a futex returns 0.
inductive WaitValue
  | outcome (outcome : WaitOutcome)
  | zero
  deriving DecidableEq, Repr

structure WaitKey where
  object : Nat
  event : Nat
  deriving DecidableEq, Repr

-- What runs in the kernel: the thread of a task, or an interrupt on some CPU.
inductive KernelCtx
  | task (task : Nat)
  | interrupt (cpu : Nat)
  deriving DecidableEq

-- The queues that tasks wait in.
inductive WaitList
  | io
  | childExit
  | timer
  | signal
  | futex
  deriving DecidableEq, Repr

-- What an entry waits for.
inductive EntryKey
  | unkeyed
  | key (key : WaitKey)
  | futex (uaddr key : Nat) (bitset : BitVec 64)
  deriving DecidableEq, Repr

-- The entries that a wake is for.
inductive WakeFilter
  | all
  | unkeyed
  | key (key : WaitKey)
  | futex (uaddr key : Nat) (bitset : BitVec 64)
  | futexKey (uaddr key : Nat)
  deriving DecidableEq, Repr

def WakeFilter.accepts : WakeFilter → EntryKey → Bool
  | .all,           _               => true
  | .unkeyed,       .unkeyed        => true
  | .key a,         .key b          => b = a
  | .futex a k set, .futex b l set' => b = a && l = k && set' &&& set ≠ 0
  | .futexKey a k,  .futex b l _    => b = a && l = k
  | _,              _               => false

-- Tokens are of type `usize`. They are counted without bound here, and compared as the kernel compares them.
def sameToken (a b : Nat) : Bool :=
  a % (Usize.max + 1) = b % (Usize.max + 1)

-- The words of memory that the conditions of waits depend on.
abbrev Memory := Nat → Nat

variable {τ : Type}

structure WaitEntry (τ : Type) where
  task : τ
  token : Nat
  key : EntryKey
  deriving DecidableEq, Repr

-- A wait of a task. It has an entry for each of its keys.
structure Wait where
  list : WaitList
  token : Nat
  keys : List EntryKey
  deadlineUs : Option Nat
  condition : Memory → Except SysErrNo Bool

def Wait.entries (wait : Wait) (task : τ) : List (WaitEntry τ) :=
  wait.keys.map (⟨task, wait.token, ·⟩)

structure TimerWaiter (τ : Type) where
  deadlineUs : Nat
  task : τ
  token : Nat
  deriving DecidableEq, Repr

-- The part of a task that its waits concern. Its status is guarded by a lock, which has a holder, and `current`
-- says whether the task is the `CURRENT_TASK` of a processor.
structure Waiter (τ : Type) where
  status : TaskStatus
  statusLock : Option τ
  blockReason : Option BlockReason
  waitOutcome : Option WaitOutcome
  waitToken : Nat
  current : Bool
  unblockedPending : Bool

-- What happens to waits, which are told apart by their tokens. A waker has the token of the wait that it is
-- for, unless it is a signal. A call that returns before it has a wait has no token.
inductive WaitEvent (τ : Type)
  | changed (task : τ) (token : Option Nat) (wait : Nat)
  | recorded (task : τ) (token : Option Nat) (wait : Nat) (outcome : WaitOutcome)
  | returned (task : τ) (wait : Option Nat) (result : Except SysErrNo WaitValue)

-- The last six fields are not read by the kernel: they say what has happened, what the last wait of a task
-- was, which entry a thread has taken out of a queue, which token it has accepted, which wakes it still owes to a
-- change of the memory, and the queue in which the last scan of its call has found nothing.
structure WaitState (τ : Type) where
  tasks : τ → Waiter τ
  queues : WaitList → List (WaitEntry τ)
  timers : List (TimerWaiter τ)
  memory : Memory
  timeUs : Nat
  history : List (WaitEvent τ)
  waits : τ → Wait
  taken : τ → Option (WaitList × WaitEntry τ)
  waking : τ → Option (τ × Nat)
  owed : τ → List (WaitList × WakeFilter)
  scan : τ → Option (List (WaitEntry τ))

namespace WaitState

open Function (update)

variable [DecidableEq τ]

def setTask (state : WaitState τ) (task : τ) (f : Waiter τ → Waiter τ) : WaitState τ :=
  { state with tasks := update state.tasks task (f (state.tasks task)) }

def setQueue (state : WaitState τ) (list : WaitList) (f : List (WaitEntry τ) → List (WaitEntry τ)) :
    WaitState τ :=
  { state with queues := update state.queues list (f (state.queues list)) }

def record (state : WaitState τ) (event : WaitEvent τ) : WaitState τ :=
  { state with history := event :: state.history }

-- The token that a thread wakes a task with.
def wakingToken (state : WaitState τ) (thread task : τ) : Option Nat :=
  (state.waking thread).bind fun (other, token) => if other = task then some token else none

end WaitState

-- The accesses to what tasks share. Every mutex other than the one of the status is held for a single access.
-- `abandonReason` clears the reason of a wait that has not blocked. `returned` and `woke` mark the end of a call
-- that waits or wakes.
inductive WaitInstr (τ : Type) : Type → Type
  | takeOutcome (task : τ) : WaitInstr τ (Option WaitOutcome)
  | loadOutcome (task : τ) : WaitInstr τ (Option WaitOutcome)
  | clearOutcome (task : τ) : WaitInstr τ Unit
  | recordOutcome (task : τ) (outcome : WaitOutcome) : WaitInstr τ Unit
  | loadReason (task : τ) : WaitInstr τ (Option BlockReason)
  | storeReason (task : τ) (reason : Option BlockReason) : WaitInstr τ Unit
  | abandonReason (task : τ) : WaitInstr τ Unit
  | currentWaitToken (task : τ) : WaitInstr τ Nat
  | compareToken (task : τ) (token : Nat) : WaitInstr τ Bool
  | nextWaitToken (task : τ) : WaitInstr τ Nat
  | lockStatus (task : τ) : WaitInstr τ TaskStatus
  | writeStatus (task : τ) (status : TaskStatus) : WaitInstr τ Unit
  | unlockStatus (task : τ) : WaitInstr τ Unit
  | status (task : τ) : WaitInstr τ TaskStatus
  | setStatus (task : τ) (status : TaskStatus) : WaitInstr τ Unit
  | setStatusIf (task : τ) (expected next : TaskStatus) : WaitInstr τ Bool
  | setCurrent (task : τ) (current : Bool) : WaitInstr τ Unit
  | pushWaiters (task : τ) (wait : Wait) : WaitInstr τ Unit
  | removeWaiters (list : WaitList) (task : τ) (token : Nat) : WaitInstr τ Bool
  | removeTaskWaiters (list : WaitList) (task : τ) : WaitInstr τ Unit
  | takeWaiter (list : WaitList) (filter : WakeFilter) : WaitInstr τ (Option (WaitEntry τ))
  | addTimeout (deadlineUs : Nat) (task : τ) (token : Nat) : WaitInstr τ Unit
  | removeTimeout (task : τ) (token : Nat) : WaitInstr τ Bool
  | removeTaskTimeouts (task : τ) : WaitInstr τ Unit
  | takeExpired (now : Nat) : WaitInstr τ (List (TimerWaiter τ))
  | getTimeUs : WaitInstr τ Nat
  | hasUnblockedPending (task : τ) : WaitInstr τ Bool
  | setUnblockedPending (task : τ) (pending : Bool) : WaitInstr τ Unit
  | shouldSleep (condition : Memory → Except SysErrNo Bool) : WaitInstr τ (Except SysErrNo Bool)
  | change (f : Memory → Memory) (wakes : List (WaitList × WakeFilter)) : WaitInstr τ Unit
  | elapse (us : Nat) : WaitInstr τ Unit
  | requeue (filter : WakeFilter) (uaddr key nrWake nrRequeue : Nat) : WaitInstr τ (List (WaitEntry τ) × Nat)
  | returned (task : τ) (list : WaitList) (wait : Option Nat) (result : Except SysErrNo WaitValue) :
      WaitInstr τ Unit
  | woke (list : WaitList) (filter : WakeFilter) (limit count : Nat) : WaitInstr τ Unit

namespace WaitInstr

open Function (update)

variable [DecidableEq τ]

-- The effect of an instruction that needs the lock of a status is there only while nobody holds it.
def unlocked {β : Type} (state : WaitState τ) (task : τ) (result : β × WaitState τ) :
    Option (β × WaitState τ) :=
  if (state.tasks task).statusLock = none then some result else none

-- A waker that clears the reason of a task is recorded.
def storeReasonExec (thread task : τ) (reason : Option BlockReason) (state : WaitState τ) : WaitState τ :=
  let stored := state.setTask task ({ · with blockReason := reason })
  match state.wakingToken thread task with
  | some token => stored.record (.changed task (some token) (state.tasks task).waitToken)
  | none       => stored

def takeWaiterExec (thread : τ) (list : WaitList) (filter : WakeFilter) (state : WaitState τ) :
    Option (WaitEntry τ) × WaitState τ :=
  match (state.queues list).find? (filter.accepts ·.key) with
  | some entry =>
    (some entry, { state.setQueue list (·.eraseP (filter.accepts ·.key)) with
      taken := update state.taken thread (some (list, entry))
      scan  := update state.scan thread none })
  | none =>
    (none, { state with
      taken := update state.taken thread none
      owed  := update state.owed thread ((state.owed thread).erase (list, filter))
      scan  := update state.scan thread (some (state.queues list)) })

-- A wait on a futex has a single entry, and only the first one that is found is removed.
def removeEntries (list : WaitList) (own : WaitEntry τ → Bool) (entries : List (WaitEntry τ)) :
    List (WaitEntry τ) :=
  match list with
  | .futex => entries.eraseP own
  | _      => entries.filter (!own ·)

-- Takes the first entries that the filter accepts.
def takeEntries (filter : WakeFilter) : List (WaitEntry τ) → Nat → List (WaitEntry τ) × List (WaitEntry τ)
  | [], _ => ([], [])
  | entry :: entries, limit =>
    if limit ≠ 0 ∧ filter.accepts entry.key then
      let (taken, rest) := takeEntries filter entries (limit - 1)
      (entry :: taken, rest)
    else
      let (taken, rest) := takeEntries filter entries limit
      (taken, entry :: rest)

def EntryKey.requeued (uaddr key : Nat) : EntryKey → EntryKey
  | .futex _ _ bitset => .futex uaddr key bitset
  | other             => other

-- Moves the first entries that the filter accepts to another futex, and counts them.
def requeueEntries (filter : WakeFilter) (uaddr key : Nat) :
    List (WaitEntry τ) → Nat → List (WaitEntry τ) × Nat
  | [], _ => ([], 0)
  | entry :: entries, limit =>
    if limit ≠ 0 ∧ filter.accepts entry.key then
      let (rest, count) := requeueEntries filter uaddr key entries (limit - 1)
      ({ entry with key := EntryKey.requeued uaddr key entry.key } :: rest, count + 1)
    else
      let (rest, count) := requeueEntries filter uaddr key entries limit
      (entry :: rest, count)

def machine : Machine (WaitInstr τ) (WaitState τ) τ where
  exec thread
    | takeOutcome task, state =>
      some ((state.tasks task).waitOutcome, state.setTask task ({ · with waitOutcome := none }))
    | loadOutcome task, state => some ((state.tasks task).waitOutcome, state)
    | clearOutcome task, state => some ((), state.setTask task ({ · with waitOutcome := none }))
    | recordOutcome task outcome, state =>
      some ((), (state.setTask task ({ · with waitOutcome := some outcome })).record
        (.recorded task (state.wakingToken thread task) (state.tasks task).waitToken outcome))
    | loadReason task, state => some ((state.tasks task).blockReason, state)
    | storeReason task reason, state => some ((), storeReasonExec thread task reason state)
    | abandonReason task, state => some ((), state.setTask task ({ · with blockReason := none }))
    | currentWaitToken task, state => some ((state.tasks task).waitToken, state)
    | compareToken task token, state =>
      if sameToken (state.tasks task).waitToken token then
        some (true, { state with waking := update state.waking thread (some (task, token)) })
      else
        some (false, { state with taken := update state.taken thread none })
    | nextWaitToken task, state =>
      some ((state.tasks task).waitToken + 1, state.setTask task fun waiter =>
        { waiter with waitToken := waiter.waitToken + 1 })
    | lockStatus task, state =>
      unlocked state task ((state.tasks task).status, state.setTask task ({ · with statusLock := some thread }))
    | writeStatus task next, state =>
      some ((), (state.setTask task ({ · with status := next })).record
        (.changed task (state.wakingToken thread task) (state.tasks task).waitToken))
    | unlockStatus task, state =>
      some ((), { state.setTask task ({ · with statusLock := none }) with
        waking := update state.waking thread none
        taken  := update state.taken thread none })
    | .status task, state => unlocked state task ((state.tasks task).status, state)
    | setStatus task next, state => unlocked state task ((), state.setTask task ({ · with status := next }))
    | setStatusIf task expected next, state =>
      if (state.tasks task).status = expected then
        unlocked state task (true, state.setTask task ({ · with status := next }))
      else
        unlocked state task (false, state)
    | setCurrent task current, state => some ((), state.setTask task ({ · with current }))
    | pushWaiters task wait, state =>
      some ((), { state.setQueue wait.list (· ++ wait.entries task) with waits := update state.waits task wait })
    | removeWaiters list task token, state =>
      let own (entry : WaitEntry τ) : Bool := entry.task = task && sameToken entry.token token
      some ((state.queues list).any own, state.setQueue list (removeEntries list own))
    | removeTaskWaiters list task, state => some ((), state.setQueue list (·.filter (·.task ≠ task)))
    | takeWaiter list filter, state => some (takeWaiterExec thread list filter state)
    | addTimeout deadlineUs task token, state =>
      some ((), { state with timers := state.timers ++ [⟨deadlineUs, task, token⟩] })
    | removeTimeout task token, state =>
      let own (waiter : TimerWaiter τ) : Bool := waiter.task = task && sameToken waiter.token token
      some (state.timers.any own, { state with timers := state.timers.eraseP own })
    | removeTaskTimeouts task, state =>
      some ((), { state with timers := state.timers.filter (·.task ≠ task) })
    | takeExpired now, state =>
      some (state.timers.filter (·.deadlineUs ≤ now),
        { state with timers := state.timers.filter (¬·.deadlineUs ≤ now) })
    | getTimeUs, state => some (state.timeUs, state)
    | hasUnblockedPending task, state => some ((state.tasks task).unblockedPending, state)
    | setUnblockedPending task pending, state =>
      some ((), state.setTask task ({ · with unblockedPending := pending }))
    | shouldSleep condition, state => some (condition state.memory, state)
    | change f wakes, state =>
      some ((), { state with memory := f state.memory, owed := update state.owed thread wakes })
    | elapse us, state => some ((), { state with timeUs := state.timeUs + us })
    | requeue filter uaddr key nrWake nrRequeue, state =>
      let (taken, rest) := takeEntries filter (state.queues .futex) nrWake
      let (entries, requeued) := requeueEntries filter uaddr key rest nrRequeue
      some ((taken, requeued), state.setQueue .futex fun _ => entries)
    | returned task _ wait result, state => some ((), state.record (.returned task wait result))
    | woke _ _ _ _, state => some ((), { state with scan := update state.scan thread none })

end WaitInstr

abbrev WaitM (τ : Type) := Prog (WaitInstr τ)

open WaitInstr

-- The section of a waker that finds the task blocked. It holds the lock of the status.
def makeReady (task : τ) (outcome : WaitOutcome) : WaitM τ Unit := do
  writeStatus task .ready
  storeReason task none
  recordOutcome task outcome
  unlockStatus task

def markBlockedTaskReady (task : τ) (outcome : WaitOutcome) : WaitM τ Bool := do
  if (← lockStatus task) ≠ .blocked then
    unlockStatus task
    return false
  else
    makeReady task outcome
    return true

def wakeTaskTokenWith (task : τ) (token : Nat) (outcome : WaitOutcome) : WaitM τ Bool := do
  if !(← compareToken task token) then
    return false
  else if (← lockStatus task) ≠ .blocked then
    let transitioning := (← loadReason task).isSome
    if transitioning then
      recordOutcome task outcome
    unlockStatus task
    return transitioning
  else
    makeReady task outcome
    return true

-- A limit of `usize::MAX` is none.
def wakeMatching (list : WaitList) (limit : Option Nat) (filter : WakeFilter) : WaitM τ Nat :=
  Prog.loop (fun woke => do
    if limit.any (· ≤ woke) then
      return .inr woke
    else
      match ← (takeWaiter list filter : WaitInstr τ _) with
      | none => return .inr woke
      | some entry =>
        if ← wakeTaskTokenWith entry.task entry.token .woken then
          return .inl (woke + 1)
        else
          return .inl woke) 0

def wakeOne (list : WaitList) : WaitM τ Nat := wakeMatching list (some 1) .all

def wakeN (list : WaitList) (n : Nat) : WaitM τ Nat := wakeMatching list (some n) .all

def wakeAll (list : WaitList) : WaitM τ Nat := wakeMatching list none .all

def wakeKey (list : WaitList) (key : WaitKey) : WaitM τ Nat := wakeMatching list none (.key key)

def wakeKeyN (list : WaitList) (key : WaitKey) (n : Nat) : WaitM τ Nat := wakeMatching list (some n) (.key key)

def wakeUnkeyed (list : WaitList) : WaitM τ Nat := wakeMatching list none .unkeyed

-- Wakes the tasks with the given tokens, and counts them.
def wakeTasks (outcome : WaitOutcome) : List (τ × Nat) → WaitM τ Nat
  | [] => pure 0
  | (task, token) :: tasks => do
    let woken ← wakeTaskTokenWith task token outcome
    let woke ← wakeTasks outcome tasks
    return if woken then woke + 1 else woke

def wakeExpiredTimers : WaitM τ Unit := do
  let now ← (getTimeUs : WaitInstr τ _)
  let expired ← (takeExpired now : WaitInstr τ _)
  let _ ← wakeTasks .timedOut (expired.map fun waiter => (waiter.task, waiter.token))

-- How a task blocks: whether it is a kernel task, and whether the foreground driver is active, which parks a
-- system call without a deadline instead of blocking in it.
structure BlockMode where
  isKernel : Bool
  foreground : Bool

-- The task is scheduled again.
def dispatch (self : τ) : WaitM τ Unit :=
  Prog.loop (fun _ => do
    if ← setStatusIf self .ready .running then
      setCurrent self true
      return .inr ()
    else
      return .inl ()) ()

-- Runs other tasks until the task is not blocked any more.
def awaitWakeup (self : τ) : WaitM τ Unit :=
  Prog.loop (fun _ => do
    if (← status self) ≠ .blocked then
      return .inr ()
    else
      wakeExpiredTimers
      return .inl ()) ()

-- Whether the system call has been parked. A kernel task switches to the scheduler, and goes on once it is
-- scheduled again.
def blockCurrentAndRunNext (self : τ) (mode : BlockMode) (deadlineUs : Option Nat) : WaitM τ Bool := do
  if mode.isKernel then
    setStatus self .blocked
    setCurrent self false
    dispatch self
    return false
  else if !(← setStatusIf self .running .blocked) then
    return false
  else if (← loadOutcome self).isSome then
    if !(← setStatusIf self .blocked .running) then
      let _ ← setStatusIf self .ready .running
    return false
  else
    setCurrent self false
    if mode.foreground && deadlineUs.isNone then
      return true
    else
      awaitWakeup self
      if ← setStatusIf self .ready .running then
        storeReason self none
      if (← status self) ≠ .zombie then
        setCurrent self true
      return false

def blockCurrentForReasonUntil (self : τ) (mode : BlockMode) (reason : BlockReason) (deadlineUs : Option Nat) :
    WaitM τ Bool := do
  if (← loadOutcome self).isSome then
    return false
  else
    storeReason self (some reason)
    blockCurrentAndRunNext self mode deadlineUs

def finishWait (self : τ) (stillWaiting : Bool) (deadlineUs : Option Nat) : WaitM τ WaitOutcome := do
  match ← takeOutcome self with
  | some outcome => return outcome
  | none =>
    if ← hasUnblockedPending self then
      return .interrupted
    else
      match stillWaiting, deadlineUs with
      | true, some deadline =>
        if (← (getTimeUs : WaitInstr τ _)) ≥ deadline then return .timedOut else return .woken
      | _, _ => return .woken

def WaitOutcome.result : WaitOutcome → Except SysErrNo WaitValue
  | interrupted => .error .EINTR
  | outcome     => .ok (.outcome outcome)

def deadlineExpired (deadlineUs : Option Nat) : WaitM τ Bool := do
  match deadlineUs with
  | some deadline => return (← (getTimeUs : WaitInstr τ _)) ≥ deadline
  | none          => return false

-- Returns from a call.
def leave (self : τ) (list : WaitList) (wait : Option Nat) (result : Except SysErrNo WaitValue) :
    WaitM τ (Option (Except SysErrNo WaitValue)) := do
  returned self list wait result
  return some result

-- Withdraws a wait before it has blocked.
def withdraw (self : τ) (list : WaitList) (token : Nat) (result : Except SysErrNo WaitValue) :
    WaitM τ (Option (Except SysErrNo WaitValue)) := do
  let _ ← removeWaiters list self token
  abandonReason self
  leave self list (some token) result

def entryKeys (keys : List WaitKey) : List EntryKey :=
  if keys.isEmpty then [.unkeyed] else keys.map .key

-- The part of a call that follows the registration of its wait. There is no result if the system call has been
-- parked, which returns `ERESTARTSYS`.
def sleepRegistered (self : τ) (mode : BlockMode) (reason : BlockReason) (wait : Wait) :
    WaitM τ (Option (Except SysErrNo WaitValue)) := do
  match ← (shouldSleep wait.condition : WaitInstr τ _) with
  | .error error => withdraw self wait.list wait.token (.error error)
  | .ok false    => withdraw self wait.list wait.token (.ok (.outcome .woken))
  | .ok true =>
    if ← hasUnblockedPending self then
      withdraw self wait.list wait.token (.error .EINTR)
    else
      if let some deadline := wait.deadlineUs then
        addTimeout deadline self wait.token
      if ← blockCurrentForReasonUntil self mode reason wait.deadlineUs then
        return none
      else
        storeReason self none
        let stillWaiting ← removeWaiters wait.list self wait.token
        if wait.deadlineUs.isSome then
          let _ ← removeTimeout self wait.token
        let outcome ← finishWait self stillWaiting wait.deadlineUs
        leave self wait.list (some wait.token) outcome.result

def sleepUntilKeysIfWithReason (self : τ) (mode : BlockMode) (list : WaitList) (keys : List WaitKey)
    (deadlineUs : Option Nat) (reason : BlockReason) (condition : Memory → Except SysErrNo Bool) :
    WaitM τ (Option (Except SysErrNo WaitValue)) := do
  match ← takeOutcome self with
  | some outcome =>
    let token ← currentWaitToken self
    let _ ← removeWaiters list self token
    let _ ← removeTimeout self token
    storeReason self none
    leave self list (some token) outcome.result
  | none =>
    if ← deadlineExpired deadlineUs then
      leave self list none (.ok (.outcome .timedOut))
    else
      removeTaskWaiters list self
      removeTaskTimeouts self
      let token ← nextWaitToken self
      clearOutcome self
      storeReason self (some reason)
      let wait : Wait := ⟨list, token, entryKeys keys, deadlineUs, condition⟩
      pushWaiters self wait
      sleepRegistered self mode reason wait

-- A system call that has been parked is restarted once the task is scheduled again.
def syscall (self : τ) (call : WaitM τ (Option (Except SysErrNo WaitValue))) : WaitM τ Unit := do
  if (← call).isNone then
    dispatch self

-- Changes the memory and wakes the tasks whose conditions may have changed.
def notify (f : Memory → Memory) (wakes : List (WaitList × WakeFilter)) : WaitM τ Unit := do
  (change f wakes : WaitInstr τ _)
  wakeLists wakes
where
  wakeLists : List (WaitList × WakeFilter) → WaitM τ Unit
    | [] => pure ()
    | (list, filter) :: wakes => do
      let _ ← wakeMatching list none filter
      wakeLists wakes

-- A signal becomes pending. It interrupts the task unless the task is stopped.
def sendSignal (task : τ) (unblocked : Bool) : WaitM τ Unit := do
  if unblocked then
    setUnblockedPending task true
  let _ ← wakeAll .signal
  if (← status task) ≠ .stopped then
    if ← hasUnblockedPending task then
      let _ ← markBlockedTaskReady task .interrupted

def suspendCurrentAndRunNext (self : τ) : WaitM τ Unit := do
  setCurrent self false
  setStatus self .ready
  dispatch self

end WllOs
