import WllOs.Task.Futex

namespace WllOs

-- Where a task is in a call that waits. The points of a call at which the same holds are not told apart.
inductive WaitPc
  -- The task is not in a call. A call that has been parked may have to be restarted.
  | out (restarting : Bool)
  | suspended (restarting : Bool)
  | resumed (list : WaitList) (outcome : WaitOutcome)
  | resuming (list : WaitList) (token : Nat) (outcome : WaitOutcome)
  | removing (list : WaitList) (token : Nat) (outcome : WaitOutcome)
  | entered (list : WaitList)
  | emptied (list : WaitList)
  | counting (list : WaitList)
  | counted (list : WaitList) (token : Nat)
  | cleared (list : WaitList) (token : Nat)
  | reasoned (list : WaitList) (token : Nat)
  | registered (wait : Wait)
  | withdrawing (wait : Wait)
  | withdrawn (wait : Wait)
  | abandoned (wait : Wait)
  -- The condition was found to hold.
  | evaluated (wait : Wait)
  | checked (wait : Wait)
  | blocking (wait : Wait)
  | kernelBlocked (wait : Wait)
  -- The status of the task is `Blocked`, until it is woken.
  | published (wait : Wait)
  | unpublishing (wait : Wait)
  | switching (wait : Wait)
  | waiting (wait : Wait)
  | dispatched
  -- Whether the task has its processor back.
  | awake (wait : Wait) (current : Bool)
  | left (wait : Wait)
  | removed (wait : Wait)
  | timeless (wait : Wait)
  | done (list : WaitList) (token : Nat) (outcome : Option WaitOutcome)

-- How far a waker is that holds the lock of a status.
inductive LockStage
  -- The task is not blocked.
  | other
  | sawReason
  -- The task is blocked.
  | blocked
  | ready
  | cleared
  | done

inductive WakePc (τ : Type)
  | idle
  | took (task : τ) (token : Nat)
  | accepted (task : τ) (token : Nat)
  | locked (task : τ) (stage : LockStage)

-- Along with its place in a call, a thread has the tasks that it has yet to wake, the wakes that it owes, and what
-- its last scan has looked for in vain.
structure Pc (τ : Type) where
  wait : WaitPc
  wake : WakePc τ
  pending : List (τ × Nat)
  owed : List (WaitList × WakeFilter)
  missed : Option (WaitList × WakeFilter)

variable {τ : Type}

-- What the instruction ahead of a thread says about its place.
def Pc.Heads (pc : Pc τ) : Option (Σ β, WaitInstr τ β) → Prop
  | some ⟨_, .returned _ list none _⟩         => pc.wait = .entered list
  | some ⟨_, .returned _ list (some token) _⟩ => ∃ outcome, pc.wait = .done list token outcome
  | some ⟨_, .woke list filter limit count⟩   => count < limit → pc.missed = some (list, filter)
  | _                                         => True

-- A thread that has seen the reason of a task is about to record an outcome.
structure Pc.Fits (pc : Pc τ) (head : Option (Σ β, WaitInstr τ β)) : Prop where
  records : ∀ task, pc.wake = .locked task .sawReason → ∃ outcome, head = some ⟨_, .recordOutcome task outcome⟩
  heads : pc.Heads head

open WaitInstr

-- What the task itself does in a call that waits.
inductive WaitFlow (protocol : WaitProtocol) (isKernel : τ → Bool) (self : τ) :
    WaitPc → {β : Type} → WaitInstr τ β → β → WaitPc → Prop
  | resume {restarting : Bool} {outcome : WaitOutcome} (list : WaitList) :
      WaitFlow protocol isKernel self (.out restarting) (takeOutcome self) (some outcome) (.resumed list outcome)
  | token {list : WaitList} {outcome : WaitOutcome} {token : Nat} :
      WaitFlow protocol isKernel self (.resumed list outcome) (currentWaitToken self) token
        (.resuming list token outcome)
  | resumedReasonFirst {list : WaitList} {token : Nat} {outcome : WaitOutcome} :
      WaitFlow protocol isKernel self (.resuming list token outcome) (storeReason self none) ()
        (.resuming list token outcome)
  | resumedRemove {list : WaitList} {token : Nat} {outcome : WaitOutcome} {removed : Bool} :
      WaitFlow protocol isKernel self (.resuming list token outcome) (removeWaiters list self token) removed
        (.removing list token outcome)
  | resumedTimeout {list : WaitList} {token : Nat} {outcome : WaitOutcome} {removed : Bool} :
      WaitFlow protocol isKernel self (.removing list token outcome) (removeTimeout self token) removed
        (.done list token (some outcome))
  | resumedReason {list : WaitList} {token : Nat} {outcome : Option WaitOutcome} :
      WaitFlow protocol isKernel self (.done list token outcome) (storeReason self none) ()
        (.done list token outcome)
  | enter {restarting : Bool} (list : WaitList) :
      WaitFlow protocol isKernel self (.out restarting) (takeOutcome self) none (.entered list)
  | removeOld {list : WaitList} :
      WaitFlow protocol isKernel self (.entered list) (removeTaskWaiters list self) () (.emptied list)
  | removeOldTimeouts {list : WaitList} :
      WaitFlow protocol isKernel self (.emptied list) (removeTaskTimeouts self) () (.counting list)
  | count {list : WaitList} {token : Nat} :
      WaitFlow protocol isKernel self (.counting list) (nextWaitToken self) token (.counted list token)
  | clear {list : WaitList} {token : Nat} :
      WaitFlow protocol isKernel self (.counted list token) (clearOutcome self) () (.cleared list token)
  | reason {list : WaitList} {token : Nat} {reason : BlockReason} :
      WaitFlow protocol isKernel self (.cleared list token) (storeReason self (some reason)) ()
        (.reasoned list token)
  -- A wait for a futex has a single key.
  | register (wait : Wait) : (wait.list = .futex ∧ ∃ key, wait.keys = [key]) ∨
      (wait.list ≠ .futex ∧ protocol.waits wait.list wait.keys wait.condition) →
      WaitFlow protocol isKernel self (.reasoned wait.list wait.token) (pushWaiters self wait) ()
        (.registered wait)
  | evaluate {wait : Wait} :
      WaitFlow protocol isKernel self (.registered wait) (shouldSleep wait.condition) (.ok true) (.evaluated wait)
  | reject {wait : Wait} {result : Except SysErrNo Bool} : result ≠ .ok true →
      WaitFlow protocol isKernel self (.registered wait) (shouldSleep wait.condition) result (.withdrawing wait)
  | interrupt {wait : Wait} :
      WaitFlow protocol isKernel self (.evaluated wait) (hasUnblockedPending self) true (.withdrawing wait)
  | withdraw {wait : Wait} {removed : Bool} :
      WaitFlow protocol isKernel self (.withdrawing wait) (removeWaiters wait.list self wait.token) removed
        (.withdrawn wait)
  | abandon {wait : Wait} : wait.list ≠ .futex →
      WaitFlow protocol isKernel self (.withdrawn wait) (abandonReason self) () (.done wait.list wait.token none)
  | abandonFutex {wait : Wait} : wait.list = .futex →
      WaitFlow protocol isKernel self (.withdrawn wait) (storeReason self none) () (.abandoned wait)
  | clearAbandoned {wait : Wait} :
      WaitFlow protocol isKernel self (.abandoned wait) (clearOutcome self) () (.done wait.list wait.token none)
  | timeout {wait : Wait} {deadline : Nat} : wait.deadlineUs = some deadline →
      WaitFlow protocol isKernel self (.evaluated wait) (addTimeout deadline self wait.token) () (.evaluated wait)
  | early {wait : Wait} {outcome : WaitOutcome} :
      WaitFlow protocol isKernel self (.evaluated wait) (loadOutcome self) (some outcome) (.awake wait true)
  | check {wait : Wait} :
      WaitFlow protocol isKernel self (.evaluated wait) (loadOutcome self) none (.checked wait)
  | reasonAgain {wait : Wait} {reason : BlockReason} :
      WaitFlow protocol isKernel self (.checked wait) (storeReason self (some reason)) () (.blocking wait)
  | blockKernel {wait : Wait} : isKernel self →
      WaitFlow protocol isKernel self (.blocking wait) (setStatus self .blocked) () (.kernelBlocked wait)
  | switchKernel {wait : Wait} :
      WaitFlow protocol isKernel self (.kernelBlocked wait) (setCurrent self false) () (.kernelBlocked wait)
  | notReadyKernel {wait : Wait} :
      WaitFlow protocol isKernel self (.kernelBlocked wait) (setStatusIf self .ready .running) false
        (.kernelBlocked wait)
  | dispatchKernel {wait : Wait} :
      WaitFlow protocol isKernel self (.kernelBlocked wait) (setStatusIf self .ready .running) true
        (.awake wait false)
  | publish {wait : Wait} :
      WaitFlow protocol isKernel self (.blocking wait) (setStatusIf self .running .blocked) true (.published wait)
  | notRunning {wait : Wait} :
      WaitFlow protocol isKernel self (.blocking wait) (setStatusIf self .running .blocked) false (.awake wait true)
  | recheckSome {wait : Wait} {outcome : WaitOutcome} :
      WaitFlow protocol isKernel self (.published wait) (loadOutcome self) (some outcome) (.unpublishing wait)
  | unpublish {wait : Wait} {blocked : Bool} :
      WaitFlow protocol isKernel self (.unpublishing wait) (setStatusIf self .blocked .running) blocked
        (.awake wait true)
  | recheckNone {wait : Wait} :
      WaitFlow protocol isKernel self (.published wait) (loadOutcome self) none (.switching wait)
  | switch {wait : Wait} :
      WaitFlow protocol isKernel self (.switching wait) (setCurrent self false) () (.waiting wait)
  | notReady {wait : Wait} :
      WaitFlow protocol isKernel self (.waiting wait) (setStatusIf self .ready .running) false (.waiting wait)
  | restart {wait : Wait} : wait.deadlineUs = none →
      WaitFlow protocol isKernel self (.waiting wait) (setStatusIf self .ready .running) true .dispatched
  | run : WaitFlow protocol isKernel self .dispatched (setCurrent self true) () (.out true)
  | wakeup {wait : Wait} {status : TaskStatus} : status ≠ .blocked →
      WaitFlow protocol isKernel self (.waiting wait) (.status self) status (.awake wait false)
  | runAwake {wait : Wait} {current ready : Bool} :
      WaitFlow protocol isKernel self (.awake wait current) (setStatusIf self .ready .running) ready
        (.awake wait current)
  | reasonAwake {wait : Wait} {current : Bool} :
      WaitFlow protocol isKernel self (.awake wait current) (storeReason self none) () (.awake wait current)
  | zombie {wait : Wait} {current : Bool} :
      WaitFlow protocol isKernel self (.awake wait current) (.status self) .zombie (.awake wait true)
  | current {wait : Wait} {current : Bool} :
      WaitFlow protocol isKernel self (.awake wait current) (setCurrent self true) () (.awake wait true)
  | leave {wait : Wait} :
      WaitFlow protocol isKernel self (.awake wait true) (storeReason self none) () (.left wait)
  | remove {wait : Wait} {removed : Bool} :
      WaitFlow protocol isKernel self (.left wait) (removeWaiters wait.list self wait.token) removed (.removed wait)
  | removeTimeout {wait : Wait} {removed : Bool} :
      WaitFlow protocol isKernel self (.removed wait) (.removeTimeout self wait.token) removed (.timeless wait)
  | finishTimeless {wait : Wait} {outcome : Option WaitOutcome} :
      WaitFlow protocol isKernel self (.timeless wait) (takeOutcome self) outcome
        (.done wait.list wait.token outcome)
  | finish {wait : Wait} {outcome : Option WaitOutcome} : wait.deadlineUs = none →
      WaitFlow protocol isKernel self (.removed wait) (takeOutcome self) outcome (.done wait.list wait.token outcome)
  | returned {list : WaitList} {token : Nat} {outcome : Option WaitOutcome} {result : Except SysErrNo WaitValue} :
      (list = .futex → outcome = some .woken → result = .ok .zero) →
      WaitFlow protocol isKernel self (.done list token outcome) (.returned self list (some token) result) ()
        (.out false)
  | returnedEarly {list : WaitList} {result : Except SysErrNo WaitValue} :
      WaitFlow protocol isKernel self (.entered list) (.returned self list none result) () (.out false)
  -- The task is suspended outside of a call.
  | yield {restarting : Bool} :
      WaitFlow protocol isKernel self (.out restarting) (setStatus self .ready) () (.out restarting)
  | switchOut {restarting : Bool} :
      WaitFlow protocol isKernel self (.out restarting) (setCurrent self false) () (.suspended restarting)
  | suspend {restarting : Bool} :
      WaitFlow protocol isKernel self (.suspended restarting) (setStatus self .ready) () (.suspended restarting)
  | dispatch {restarting ready : Bool} :
      WaitFlow protocol isKernel self (.suspended restarting) (setStatusIf self .ready .running) ready
        (.suspended restarting)
  | switchIn {restarting : Bool} :
      WaitFlow protocol isKernel self (.suspended restarting) (setCurrent self true) () (.out restarting)

-- What a waker does, from the point on where it has a token.
inductive WakeFlow : WakePc τ → {β : Type} → WaitInstr τ β → β → WakePc τ → Prop
  | accept {task : τ} {token : Nat} : WakeFlow (.took task token) (compareToken task token) true (.accepted task token)
  | stale {task : τ} {token : Nat} : WakeFlow (.took task token) (compareToken task token) false .idle
  | lockOther {task : τ} {token : Nat} {status : TaskStatus} : status ≠ .blocked →
      WakeFlow (.accepted task token) (lockStatus task) status (.locked task .other)
  | lockBlocked {task : τ} {token : Nat} :
      WakeFlow (.accepted task token) (lockStatus task) .blocked (.locked task .blocked)
  | interruptOther {task : τ} {status : TaskStatus} : status ≠ .blocked →
      WakeFlow .idle (lockStatus task) status (.locked task .done)
  | interruptBlocked {task : τ} : WakeFlow .idle (lockStatus task) .blocked (.locked task .blocked)
  | sawReason {task : τ} {reason : BlockReason} :
      WakeFlow (.locked task .other) (loadReason task) (some reason) (.locked task .sawReason)
  | sawNone {task : τ} : WakeFlow (.locked task .other) (loadReason task) none (.locked task .done)
  | recordEarly {task : τ} {outcome : WaitOutcome} :
      WakeFlow (.locked task .sawReason) (recordOutcome task outcome) () (.locked task .done)
  | ready {task : τ} : WakeFlow (.locked task .blocked) (writeStatus task .ready) () (.locked task .ready)
  | clear {task : τ} : WakeFlow (.locked task .ready) (storeReason task none) () (.locked task .cleared)
  | record {task : τ} {outcome : WaitOutcome} :
      WakeFlow (.locked task .cleared) (recordOutcome task outcome) () (.locked task .done)
  | unlock {task : τ} : WakeFlow (.locked task .done) (unlockStatus task) () .idle

-- The instructions that do not depend on where a thread is.
inductive FreeInstr : {β : Type} → WaitInstr τ β → Prop
  | getTimeUs : FreeInstr getTimeUs
  | status (task : τ) : FreeInstr (.status task)
  | hasUnblockedPending (task : τ) : FreeInstr (hasUnblockedPending task)
  | setUnblockedPending (task : τ) (pending : Bool) : FreeInstr (setUnblockedPending task pending)
  | shouldSleep (condition : Memory → Except SysErrNo Bool) : FreeInstr (shouldSleep condition)
  | elapse (us : Nat) : FreeInstr (elapse us)

-- The instructions of all calls, and how a thread goes on after them.
inductive Flow (protocol : WaitProtocol) (isKernel : τ → Bool) (self : τ) :
    Pc τ → {β : Type} → WaitInstr τ β → β → Pc τ → Prop
  | wait {wait wait' : WaitPc} {missed : Option (WaitList × WakeFilter)} {β : Type} {i : WaitInstr τ β} {b : β} :
      WaitFlow protocol isKernel self wait i b wait' →
      Flow protocol isKernel self ⟨wait, .idle, [], [], missed⟩ i b ⟨wait', .idle, [], [], missed⟩
  | wake {wait : WaitPc} {wake wake' : WakePc τ} {pending : List (τ × Nat)}
      {owed : List (WaitList × WakeFilter)} {missed : Option (WaitList × WakeFilter)} {β : Type} {i : WaitInstr τ β}
      {b : β} : WakeFlow wake i b wake' →
      Flow protocol isKernel self ⟨wait, wake, pending, owed, missed⟩ i b ⟨wait, wake', pending, owed, missed⟩
  | takeNone {wait : WaitPc} {owed : List (WaitList × WakeFilter)} {missed : Option (WaitList × WakeFilter)}
      {list : WaitList} {filter : WakeFilter} :
      Flow protocol isKernel self ⟨wait, .idle, [], owed, missed⟩ (takeWaiter list filter) none
        ⟨wait, .idle, [], owed.erase (list, filter), some (list, filter)⟩
  | takeSome {wait : WaitPc} {owed : List (WaitList × WakeFilter)} {missed : Option (WaitList × WakeFilter)}
      {list : WaitList} {filter : WakeFilter} {entry : WaitEntry τ} :
      Flow protocol isKernel self ⟨wait, .idle, [], owed, missed⟩ (takeWaiter list filter) (some entry)
        ⟨wait, .took entry.task entry.token, [], owed, none⟩
  | expire {wait : WaitPc} {owed : List (WaitList × WakeFilter)} {missed : Option (WaitList × WakeFilter)} {now : Nat}
      {expired : List (TimerWaiter τ)} :
      Flow protocol isKernel self ⟨wait, .idle, [], owed, missed⟩ (takeExpired now) expired
        ⟨wait, .idle, expired.map fun waiter => (waiter.task, waiter.token), owed, missed⟩
  | requeue {wait : WaitPc} {owed : List (WaitList × WakeFilter)} {missed : Option (WaitList × WakeFilter)}
      {filter : WakeFilter} {uaddr key nrWake nrRequeue : Nat} {toWake : List (WaitEntry τ)} {requeued : Nat} :
      Flow protocol isKernel self ⟨wait, .idle, [], owed, missed⟩ (requeue filter uaddr key nrWake nrRequeue)
        (toWake, requeued) ⟨wait, .idle, toWake.map fun waiter => (waiter.task, waiter.token), owed, missed⟩
  | acceptPending {wait : WaitPc} {task : τ} {token : Nat} {pending : List (τ × Nat)}
      {owed : List (WaitList × WakeFilter)} {missed : Option (WaitList × WakeFilter)} :
      Flow protocol isKernel self ⟨wait, .idle, (task, token) :: pending, owed, missed⟩ (compareToken task token) true
        ⟨wait, .accepted task token, pending, owed, missed⟩
  | stalePending {wait : WaitPc} {task : τ} {token : Nat} {pending : List (τ × Nat)}
      {owed : List (WaitList × WakeFilter)} {missed : Option (WaitList × WakeFilter)} :
      Flow protocol isKernel self ⟨wait, .idle, (task, token) :: pending, owed, missed⟩ (compareToken task token) false
        ⟨wait, .idle, pending, owed, missed⟩
  | change {wait : WaitPc} {missed : Option (WaitList × WakeFilter)} {f : Memory → Memory}
      {wakes : List (WaitList × WakeFilter)} : protocol.changes f wakes →
      Flow protocol isKernel self ⟨wait, .idle, [], [], missed⟩ (change f wakes) () ⟨wait, .idle, [], wakes, missed⟩
  | woke {wait : WaitPc} {missed : Option (WaitList × WakeFilter)} {list : WaitList} {filter : WakeFilter}
      {limit count : Nat} : (count < limit → missed = some (list, filter)) →
      Flow protocol isKernel self ⟨wait, .idle, [], [], missed⟩ (woke list filter limit count) ()
        ⟨wait, .idle, [], [], none⟩
  | free {pc : Pc τ} {β : Type} {i : WaitInstr τ β} {b : β} : FreeInstr i → pc.wake = .idle →
      Flow protocol isKernel self pc i b pc

end WllOs
