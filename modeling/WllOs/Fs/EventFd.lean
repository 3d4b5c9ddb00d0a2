import WllOs.Fs.Objects
import WllOs.Task.Wait

namespace WllOs.Fs

-- The events of the wait keys of an eventfd.
inductive EventFdEvent
  | readable
  | writable
  deriving DecidableEq, Repr

-- A read or write of 8 bytes. A read also has to copy the value to the buffer of the user, which may fail.
inductive EventFdCall
  | read (writable : Bool)
  | write (value : BitVec 64)
  deriving DecidableEq, Repr

def EventFdCall.event : EventFdCall → EventFdEvent
  | read _  => .readable
  | write _ => .writable

namespace EventFdState

variable (eventFd : EventFdState)

-- `eventfd_read_would_block` and `eventfd_write_would_block`. The latter does not know of the value.
def wouldBlock : EventFdEvent → Bool
  | .readable => eventFd.counter = 0
  | .writable => eventFd.counter ≠ 0

-- The call has a value to read, or room for the one that it writes.
def Fits : EventFdCall → Prop
  | .read _      => 0 < eventFd.counter
  | .write value => eventFd.counter + value.toNat < COUNTER_MAX

end EventFdState

structure EventFdWaiter (τ : Type) where
  task : τ
  token : Nat
  event : EventFdEvent
  deriving DecidableEq, Repr

-- Where a task is in a read or write of an eventfd.
inductive EventFdPc (τ : Type)
  | idle
  | attempt (call : EventFdCall)
  -- `wait_read_after_eagain` and `wait_write_after_eagain`
  | test (call : EventFdCall)
  -- `sleep_until_keys_if_with_reason`: enter the queue, evaluate the condition, sleep.
  | enroll (call : EventFdCall)
  | recheck (call : EventFdCall)
  | asleep (call : EventFdCall)
  -- `wake_io_keyed_waiters`: take an entry out of the queue, wake its task.
  | wake (event : EventFdEvent)
  | deliver (event : EventFdEvent) (waiter : EventFdWaiter τ)
  deriving DecidableEq, Repr

def EventFdPc.wakes {τ : Type} : EventFdPc τ → Option EventFdEvent
  | wake event | deliver event _ => some event
  | _                            => none

-- An eventfd, the queue of the tasks that wait for it, and the tasks that use it. The last two fields are not read by
-- the kernel. They add up the initial value and all values that have been written, and what reads have returned.
structure EventFdSystem (τ : Type) where
  eventFd : EventFdState
  waiters : List (EventFdWaiter τ)
  token : τ → Nat
  outcome : τ → Option WllOs.WaitOutcome
  pc : τ → EventFdPc τ
  written : Nat
  returned : Nat

inductive EventFdAct
  | start (call : EventFdCall)
  | run
  -- A call that has been parked is executed again, from its start on.
  | restart
  -- A signal keeps a task from falling asleep, or wakes it.
  | interrupt

namespace EventFdSystem

open Function (update)

variable {τ : Type} [DecidableEq τ]

-- `sys_eventfd2`
def initial (initval : BitVec 64) (semaphore nonblock : Bool) : EventFdSystem τ :=
  ⟨⟨initval.toNat, semaphore, nonblock⟩, [], fun _ => 0, fun _ => none, fun _ => .idle, initval.toNat, 0⟩

-- A wake reaches a task that is about to fall asleep, or that has done so and has not been woken since.
def awaits (s : EventFdSystem τ) (t : τ) : Bool :=
  match s.pc t with
  | .recheck _ => true
  | .asleep _  => (s.outcome t).isNone
  | _          => false

def goto (s : EventFdSystem τ) (t : τ) (pc : EventFdPc τ) : EventFdSystem τ :=
  { s with pc := update s.pc t pc }

def setOutcome (s : EventFdSystem τ) (t : τ) (outcome : Option WllOs.WaitOutcome) : EventFdSystem τ :=
  { s with outcome := update s.outcome t outcome }

def removeWaiters (s : EventFdSystem τ) (t : τ) : EventFdSystem τ :=
  { s with waiters := s.waiters.filter fun waiter => !(waiter.task = t && sameToken waiter.token (s.token t)) }

-- Only the newest entry of a task is left in the queue.
def enterQueue (s : EventFdSystem τ) (t : τ) (event : EventFdEvent) : EventFdSystem τ :=
  { s with
    waiters := s.waiters.filter (·.task ≠ t) ++ [⟨t, s.token t + 1, event⟩]
    token   := update s.token t (s.token t + 1) }

-- The end of a wait.
def leaveQueue (s : EventFdSystem τ) (t : τ) (call : EventFdCall) (outcome : WllOs.WaitOutcome) : EventFdSystem τ :=
  ((s.removeWaiters t).setOutcome t none).goto t (if outcome = .interrupted then .idle else .attempt call)

def advance (s : EventFdSystem τ) (t : τ) : EventFdPc τ → Option (EventFdSystem τ)
  | .idle => none
  | .attempt (.read writable) =>
    match s.eventFd.read 8 with
    | (.error _, _, _) => some <| s.goto t (.test (.read writable))
    | (.ok bytes, eventFd, wakeWriters) =>
      some <| { s with eventFd, returned := s.returned + if writable then fromLeBytes bytes else 0 }.goto t
        (if wakeWriters then .wake .writable else .idle)
  | .attempt (.write value) =>
    match s.eventFd.write (leBytes 8 value.toNat) with
    | (.error .EAGAIN, _, _) => some <| s.goto t (.test (.write value))
    | (.error _, _, _)       => some <| s.goto t .idle
    | (.ok _, eventFd, wakeReaders) =>
      some <| { s with eventFd, written := s.written + value.toNat }.goto t (if wakeReaders then .wake .readable else .idle)
  | .test call =>
    if s.eventFd.nonblock then some <| s.goto t .idle
    else some <| s.goto t (if s.eventFd.wouldBlock call.event then .enroll call else .attempt call)
  | .enroll call =>
    match s.outcome t with
    | some outcome => some <| s.leaveQueue t call outcome
    | none         => some <| (s.enterQueue t call.event).goto t (.recheck call)
  | .recheck call =>
    if s.eventFd.wouldBlock call.event then some <| s.goto t (.asleep call)
    else some <| (s.removeWaiters t).goto t (.attempt call)
  | .asleep call => (s.outcome t).map (s.leaveQueue t call)
  | .wake event =>
    match s.waiters.find? (·.event = event) with
    | none        => some <| s.goto t .idle
    | some waiter =>
      some <| { s with waiters := s.waiters.eraseP (·.event = event) }.goto t (.deliver event waiter)
  -- `wake_task_token_with`
  | .deliver event waiter =>
    if sameToken (s.token waiter.task) waiter.token ∧ s.awaits waiter.task then
      some <| (s.setOutcome waiter.task (some .woken)).goto t (.wake event)
    else
      some <| s.goto t (.wake event)

def step (s : EventFdSystem τ) (t : τ) : EventFdAct → Option (EventFdSystem τ)
  | .start call => if s.pc t = .idle then some (s.goto t (.attempt call)) else none
  | .run        => s.advance t (s.pc t)
  | .restart =>
    match s.pc t with
    | .asleep call => if (s.outcome t).isSome then some (s.goto t (.attempt call)) else none
    | _            => none
  | .interrupt =>
    match s.pc t with
    | .recheck _ => some ((s.removeWaiters t).goto t .idle)
    | .asleep _  => if (s.outcome t).isNone then some (s.setOutcome t (some .interrupted)) else none
    | _          => none

-- The states that steps which satisfy `p` reach.
inductive Reachable (initval : BitVec 64) (semaphore nonblock : Bool) (p : EventFdSystem τ → τ → EventFdAct → Prop) :
    EventFdSystem τ → Prop
  | initial : Reachable initval semaphore nonblock p (initial initval semaphore nonblock)
  | step {s s' : EventFdSystem τ} {t : τ} {act : EventFdAct} : Reachable initval semaphore nonblock p s → p s t act →
      s.step t act = some s' → Reachable initval semaphore nonblock p s'

def run (s : EventFdSystem τ) : List (τ × EventFdAct) → Option (EventFdSystem τ)
  | []                => some s
  | (t, act) :: steps => (s.step t act).bind (run · steps)

-- No value is lost because the buffer of a read cannot be written to, and a writer does not fall asleep while its value
-- has room beside the one of the counter.
def Meets (s : EventFdSystem τ) (t : τ) (act : EventFdAct) : Prop :=
  act = .run →
    (s.pc t = .attempt (.read false) → s.eventFd.counter = 0) ∧
    ∀ value, s.pc t = .recheck (.write value) → s.eventFd.Fits (.write value) → s.eventFd.counter = 0

-- A task is about to wake the one that waits: it has the entry of its wait, or will find it in the queue.
def WakePending (s : EventFdSystem τ) (t : τ) (event : EventFdEvent) : Prop :=
  (∃ waiter ∈ s.waiters, waiter.task = t ∧ sameToken (s.token t) waiter.token ∧ waiter.event = event ∧
    ∃ t', (s.pc t').wakes = some event) ∨
  ∃ t' other waiter, s.pc t' = .deliver other waiter ∧ waiter.task = t ∧ sameToken (s.token t) waiter.token

structure Correct (s : EventFdSystem τ) : Prop where
  bounded : s.eventFd.counter < EventFdState.COUNTER_MAX
  conserved : s.written = s.returned + s.eventFd.counter
  -- A read of a semaphore returns 1.
  reads : ∀ t, s.pc t = .attempt (.read true) → 0 < s.eventFd.counter → ∃ s', s.step t .run = some s' ∧
    s'.returned = s.returned + if s.eventFd.semaphore then 1 else s.eventFd.counter
  writes : ∀ t value, s.pc t = .attempt (.write value) → s.eventFd.Fits (.write value) →
    ∃ s', s.step t .run = some s' ∧ s'.written = s.written + value.toNat
  awake : ∀ t call, s.pc t = .asleep call → s.outcome t = none → s.eventFd.Fits call → s.WakePending t call.event

end EventFdSystem

end WllOs.Fs
