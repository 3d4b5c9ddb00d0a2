import WllOs.Task.Wait

namespace WllOs

variable {τ : Type}

open WaitInstr

def WaitOutcome.futexResult : WaitOutcome → Except SysErrNo WaitValue
  | timedOut    => .error .ETIMEDOUT
  | interrupted => .error .EINTR
  | woken       => .ok .zero

-- The arguments of a wait on a futex. `valid` is what `validate_futex_uaddr` says of its address, `addrKey` is the
-- address and the key that tell its word from others, and `word` is what a task reads at the address.
structure FutexWait where
  value : BitVec 32
  deadlineUs : Option Nat
  bitset : BitVec 64
  valid : Except SysErrNo Unit
  addrKey : Except SysErrNo (Nat × Nat)
  word : Memory → Except SysErrNo (BitVec 32)

-- Whether the word of a futex still has the expected value.
def FutexWait.condition (futex : FutexWait) (memory : Memory) : Except SysErrNo Bool :=
  (futex.word memory).map (· = futex.value)

-- Withdraws a wait on a futex before it has blocked.
def withdrawFutex (self : τ) (token : Nat) (error : SysErrNo) : WaitM τ (Option (Except SysErrNo WaitValue)) := do
  let _ ← removeWaiters .futex self token
  storeReason self none
  clearOutcome self
  leave self .futex (some token) (.error error)

-- The part of a wait on a futex that follows its registration.
def futexRegistered (self : τ) (mode : BlockMode) (wait : Wait) : WaitM τ (Option (Except SysErrNo WaitValue)) := do
  match ← (shouldSleep wait.condition : WaitInstr τ _) with
  | .error error => withdrawFutex self wait.token error
  | .ok false    => withdrawFutex self wait.token .EAGAIN
  | .ok true =>
    if ← hasUnblockedPending self then
      withdrawFutex self wait.token .EINTR
    else
      if let some deadline := wait.deadlineUs then
        addTimeout deadline self wait.token
      if ← blockCurrentForReasonUntil self mode .futex wait.deadlineUs then
        return none
      else
        storeReason self none
        let stillWaiting ← removeWaiters .futex self wait.token
        if wait.deadlineUs.isSome then
          let _ ← removeTimeout self wait.token
        let outcome ← finishWait self stillWaiting wait.deadlineUs
        leave self .futex (some wait.token) outcome.futexResult

def finishResumedFutexWait (self : τ) (outcome : WaitOutcome) : WaitM τ (Option (Except SysErrNo WaitValue)) := do
  let token ← currentWaitToken self
  storeReason self none
  let _ ← removeWaiters .futex self token
  let _ ← removeTimeout self token
  leave self .futex (some token) outcome.futexResult

def futexRegister (self : τ) (mode : BlockMode) (futex : FutexWait) (addr key : Nat) :
    WaitM τ (Option (Except SysErrNo WaitValue)) := do
  removeTaskWaiters .futex self
  removeTaskTimeouts self
  let token ← nextWaitToken self
  clearOutcome self
  storeReason self (some .futex)
  let wait : Wait := ⟨.futex, token, [.futex addr key futex.bitset], futex.deadlineUs, futex.condition⟩
  pushWaiters self wait
  futexRegistered self mode wait

def futexWaitAddr (self : τ) (mode : BlockMode) (futex : FutexWait) :
    WaitM τ (Option (Except SysErrNo WaitValue)) := do
  match ← takeOutcome self with
  | some outcome => finishResumedFutexWait self outcome
  | none =>
    if futex.bitset = 0 then
      leave self .futex none (.error .EINVAL)
    else
      match futex.valid with
      | .error error => leave self .futex none (.error error)
      | .ok _ =>
        match ← (shouldSleep futex.condition : WaitInstr τ _) with
        | .error error => leave self .futex none (.error error)
        | .ok false    => leave self .futex none (.error .EAGAIN)
        | .ok true =>
          if ← deadlineExpired futex.deadlineUs then
            leave self .futex none (.error .ETIMEDOUT)
          else
            match futex.addrKey with
            | .error error     => leave self .futex none (.error error)
            | .ok (addr, key) => futexRegister self mode futex addr key

def futexWakeAddrKey (uaddr key n : Nat) (bitset : BitVec 64) : WaitM τ Nat := do
  if uaddr = 0 ∨ n = 0 then
    return 0
  else
    let count ← wakeMatching .futex (some n) (.futex uaddr key bitset)
    (woke .futex (.futex uaddr key bitset) n count : WaitInstr τ _)
    return count

-- The arguments of a requeue. The address and key of the second futex are those of the first if no waiter is to be
-- requeued.
structure FutexRequeue where
  nrWake : Nat
  nrRequeue : Nat
  valid : Except SysErrNo Unit
  cmp : Option (BitVec 32)
  word : Memory → Except SysErrNo (BitVec 32)
  addrKey : Except SysErrNo (Nat × Nat)
  addrKey2 : Except SysErrNo (Nat × Nat)

def FutexRequeue.mayRequeue (args : FutexRequeue) (memory : Memory) : Except SysErrNo Bool :=
  match args.cmp with
  | some expected => (args.word memory).map (· = expected)
  | none          => .ok true

def futexRequeueAddr (args : FutexRequeue) : WaitM τ (Except SysErrNo Nat) := do
  match args.valid with
  | .error error => return .error error
  | .ok _ =>
    match ← (shouldSleep args.mayRequeue : WaitInstr τ _) with
    | .error error => return .error error
    | .ok false    => return .error .EAGAIN
    | .ok true =>
      match args.addrKey, args.addrKey2 with
      | .error error, _           => return .error error
      | .ok _,        .error error => return .error error
      | .ok (addr, key), .ok (addr2, key2) =>
        let (toWake, requeued) ← (requeue (.futexKey addr key) addr2 key2 args.nrWake args.nrRequeue : WaitInstr τ _)
        let woke ← wakeTasks .woken (toWake.map fun waiter => (waiter.task, waiter.token))
        return .ok (woke + requeued)

end WllOs

namespace WllOs

variable {τ : Type}

open WaitInstr

-- The waits that there are, and the changes of the memory along with the wakes that follow them.
structure WaitProtocol where
  waits : WaitList → List EntryKey → (Memory → Except SysErrNo Bool) → Prop
  changes : (Memory → Memory) → List (WaitList × WakeFilter) → Prop

-- A change that ends the condition of a wait wakes one of its entries.
def WaitProtocol.Covers (protocol : WaitProtocol) : Prop :=
  ∀ list keys condition f wakes, protocol.waits list keys condition → protocol.changes f wakes →
    ∀ memory, condition memory = .ok true → condition (f memory) ≠ .ok true →
      ∃ filter, (list, filter) ∈ wakes ∧ ∃ key ∈ keys, filter.accepts key

-- What a task does to waits, be it in a system call of its own or in an interrupt.
inductive WaitCall (protocol : WaitProtocol) (isKernel : τ → Bool) (self : τ) : {α : Type} → WaitM τ α → Prop
  | sleep (foreground : Bool) (list : WaitList) (keys : List WaitKey) (deadlineUs : Option Nat)
      (reason : BlockReason) (condition : Memory → Except SysErrNo Bool) :
      protocol.waits list (entryKeys keys) condition → list ≠ .futex →
      WaitCall protocol isKernel self (syscall self
        (sleepUntilKeysIfWithReason self ⟨isKernel self, foreground⟩ list keys deadlineUs reason condition))
  | wake (list : WaitList) (limit : Option Nat) (filter : WakeFilter) :
      WaitCall protocol isKernel self (wakeMatching list limit filter)
  | notify (f : Memory → Memory) (wakes : List (WaitList × WakeFilter)) : protocol.changes f wakes →
      WaitCall protocol isKernel self (notify f wakes)
  | futexWait (foreground : Bool) (futex : FutexWait) :
      WaitCall protocol isKernel self (syscall self (futexWaitAddr self ⟨isKernel self, foreground⟩ futex))
  | futexWake (uaddr key n : Nat) (bitset : BitVec 64) :
      WaitCall protocol isKernel self (futexWakeAddrKey uaddr key n bitset)
  | futexRequeue (args : FutexRequeue) : WaitCall protocol isKernel self (futexRequeueAddr args)
  | expire : WaitCall protocol isKernel self wakeExpiredTimers
  | signal (task : τ) (unblocked : Bool) : WaitCall protocol isKernel self (sendSignal task unblocked)
  | suspend : WaitCall protocol isKernel self (suspendCurrentAndRunNext self)
  | yield : WaitCall protocol isKernel self (setStatus self .ready)
  | handled (task : τ) : WaitCall protocol isKernel self (setUnblockedPending task false)
  | elapse (us : Nat) : WaitCall protocol isKernel self (elapse us : WaitInstr τ _)

-- A state in which no task is in a call that waits.
structure WaitState.Initial (state : WaitState τ) : Prop where
  tasks : ∀ task, ∃ token pending, state.tasks task = ⟨.running, none, none, none, token, true, pending⟩
  queues : ∀ list, state.queues list = []
  timers : state.timers = []
  history : state.history = []
  taken : ∀ thread, state.taken thread = none
  waking : ∀ thread, state.waking thread = none
  owed : ∀ thread, state.owed thread = []
  scan : ∀ thread, state.scan thread = none

-- The configurations in which all tasks have their calls ahead of them.
structure WaitConfig (protocol : WaitProtocol) (isKernel : τ → Bool) (config : Config (WaitInstr τ) (WaitState τ) τ) :
    Prop where
  initial : config.state.Initial
  calls : ∀ task, (config.prog task).Calls (WaitCall protocol isKernel task)

end WllOs
