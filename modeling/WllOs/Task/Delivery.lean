import WllOs.Task.Signal

namespace WllOs

-- Where a task is in a call that is about its own signals.
inductive SignalPc
  | idle
  -- `handle_pending_for_task`: choose a signal, read its action, take it and build a frame for its handler. `ends`
  -- says that the loop is left after the signal is cleared, because it stops or terminates the thread group.
  | scan
  | chosen (signum : Signum)
  | clear (signum : Signum) (ends : Bool)
  | cleared (ends : Bool)
  | deliver (signum : Signum) (action : KernelSigAction)
  | delivered (signum : Signum) (action : KernelSigAction) (oldMask : BitVec 64) (info : PendingSignalInfo)
  | frame (signum : Signum) (action : KernelSigAction) (oldMask : BitVec 64) (info : PendingSignalInfo)
  -- `sys_sigtimedwait`
  | take (mask : BitVec 64)
  | taken (signum : Signum) (info : PendingSignalInfo)
  | await (mask : BitVec 64)
  -- `sys_sigsuspend`
  | suspended
  deriving DecidableEq

-- Where a sender is in `queue_signal`. Senders are `kill` and its relatives, timers, pipes, children that exit and
-- faults, on any CPU. They differ in the target, the signal and the record.
inductive SendPc
  | idle
  | action (target : Nat) (signum : Signum) (info : PendingSignalInfo)
  | judgeStop (target : Nat) (signum : Signum) (info : PendingSignalInfo) (action : KernelSigAction)
  | judgeTerminate (target : Nat) (signum : Signum) (info : PendingSignalInfo) (action : KernelSigAction)
  | post (target : Nat) (signum : Signum) (info : PendingSignalInfo)
  | posted (target : Nat)

-- The state of the signals of a task is under a lock. A section that changes what is pending stores the hint last:
-- `storing` is what it will store then, and the lock is free where it is `none`. The hint is read without the lock.
structure SignalTask where
  signalState : SignalState
  signalPendingHint : Nat
  storing : Option Nat
  signalActions : Nat
  pc : SignalPc

-- How a pending signal came to its end: a frame for its handler, the result of `sigtimedwait`, or none of them.
inductive SignalEnd
  | handler
  | waited
  | dropped
  deriving DecidableEq

inductive SignalEvent
  | created (pid : Nat)
  | queued (pid : Nat) (signum : Signum) (info : PendingSignalInfo)
  | ended (pid : Nat) (signum : Signum) (info : PendingSignalInfo) (how : SignalEnd)

-- The record that was queued last for a signal that has not come to its end since. The latest event is the first.
def pendingRecord (pid : Nat) (signum : Signum) : List SignalEvent → Option PendingSignalInfo
  | [] => none
  | .created pid' :: events => if pid' = pid then none else pendingRecord pid signum events
  | .queued pid' signum' info :: events =>
    if pid' = pid ∧ signum' = signum then some info else pendingRecord pid signum events
  | .ended pid' signum' _ _ :: events =>
    if pid' = pid ∧ signum' = signum then none else pendingRecord pid signum events

-- The mask blocks neither `SIGKILL` nor `SIGSTOP`, and a signal is pending exactly while it has a record, which is the
-- one that the task keeps for it. Where a signal is pending, the hint is not zero; while the lock is held by a section
-- that changes what is pending, the hint that it will store is not zero.
structure SignalTask.Sound (records : Signum → Option PendingSignalInfo) (task : SignalTask) : Prop where
  blocked : task.signalState.blocked &&& unblockableMask = 0
  hint : task.signalState.pending ≠ 0 → task.storing.getD task.signalPendingHint ≠ 0
  pending : ∀ signum, validSignal signum → records signum =
    if task.signalState.pending &&& signalBit signum ≠ 0 then some (task.signalState.pendingInfo signum) else none
  unqueued : ∀ signum, validSignal signum → records signum = none → task.signalState.pendingInfo signum = .empty

structure SignalSystem (σ : Type) where
  tasks : Nat → Option SignalTask
  actions : Nat → SignalActions
  senders : σ → SendPc
  next : Nat
  events : List SignalEvent

inductive SignalCall
  | handlePending
  | sigaction (signum : Signum) (act : Option KernelSigAction) (sigsetSize : Nat) (copied : Except SysErrNo Unit)
  | sigprocmask (how : Int) (set : Option (BitVec 64)) (sigsetSize : Nat) (copied : Except SysErrNo Unit)
  | sigsuspend (mask : BitVec 64)
  | sigtimedwait (mask : BitVec 64)
  | sigreturn (frameSize : Nat) (frame : SignalFrame)
  | fork (child : Nat) (shareSighand : Bool)
  | execve

-- What a task does about its own signals. `run` is the next step in a call, `wake` and `fail` end a sleep in one.
inductive SignalAct
  | call (call : SignalCall)
  | run
  | wake
  | fail (err : SysErrNo)

namespace SignalSystem

open Function (update)

variable {σ : Type}

-- No tasks.
def initial : SignalSystem σ where
  tasks _ := none
  actions _ := .new
  senders _ := .idle
  next := 0
  events := []

variable (s : SignalSystem σ)

def setTask (pid : Nat) (task : SignalTask) : SignalSystem σ :=
  { s with tasks := update s.tasks pid (some task) }

def record (event : SignalEvent) : SignalSystem σ :=
  { s with events := event :: s.events }

-- A task with nothing pending. Its actions are those of its parent, shared or copied, or new ones.
def create (pid : Nat) (state : SignalState) (signalActions : Nat) : SignalSystem σ :=
  { s with
    tasks := update s.tasks pid (some ⟨state, 0, none, signalActions, .idle⟩)
    next := s.next + 1 }.record (.created pid)

def spawn (pid : Nat) : SignalSystem σ :=
  { s with actions := update s.actions s.next .new }.create pid .new s.next

def fork (task : SignalTask) (child : Nat) (shareSighand : Bool) : SignalSystem σ :=
  let state := .forkFrom task.signalState.blocked
  if shareSighand then s.create child state task.signalActions
  else { s with actions := update s.actions s.next (s.actions task.signalActions) }.create child state s.next

-- What `handle_pending_for_task` does with the signal that it has chosen.
def dispatch (signum : Signum) (action : KernelSigAction) : SignalPc :=
  if action.handler = SIG_IGN || action.handler = SIG_DFL && defaultIgnored signum then .clear signum false
  else if action.handler = SIG_DFL then .clear signum true
  else .deliver signum action

-- A step of a task in a call. The steps that take the lock on its state come when the lock is free, and those that
-- release it store the hint.
def runTask (pid : Nat) (task : SignalTask) : Option (SignalSystem σ) :=
  match task.pc, task.storing with
  | .scan, none =>
    match task.signalState.nextUnblockedPending with
    | some signum => some <| s.setTask pid { task with pc := .chosen signum }
    | none        => some <| s.setTask pid { task with pc := .idle }
  | .chosen signum, _ =>
    some <| s.setTask pid { task with pc := dispatch signum ((s.actions task.signalActions).get signum) }
  | .clear signum ends, none =>
    let state := task.signalState.clearPending signum
    some <| (s.setTask pid { task with signalState := state, storing := some state.pendingHint, pc := .cleared ends }).record
      (.ended pid signum (task.signalState.pendingInfo signum) .dropped)
  | .cleared ends, some hint =>
    some <| s.setTask pid { task with
      signalPendingHint := hint, storing := none, pc := if ends then .idle else .scan }
  | .deliver signum action, none =>
    let (oldMask, info, state) := task.signalState.deliver signum action
    some <| (s.setTask pid { task with
      signalState := state
      storing := some state.pendingHint
      pc := .delivered signum action oldMask info }).record (.ended pid signum info .handler)
  | .delivered signum action oldMask info, some hint =>
    some <| s.setTask pid { task with
      signalPendingHint := hint, storing := none, pc := .frame signum action oldMask info }
  -- `setup_signal_frame` builds the frame from the mask and the record, or terminates the thread group.
  | .frame signum action _ _, _ =>
    let system := s.setTask pid { task with pc := .idle }
    if action.flags &&& SA_RESETHAND ≠ 0 && !cannotCatchOrIgnore signum then
      some { system with
        actions := update s.actions task.signalActions ((s.actions task.signalActions).set signum DEFAULT_SIGACTION) }
    else
      some system
  | .take mask, none =>
    match task.signalState.takePendingFromMask mask with
    | some (signum, info, state) =>
      some <| (s.setTask pid { task with
        signalState := state
        storing := some state.pendingHint
        pc := .taken signum info }).record (.ended pid signum info .waited)
    | none => some <| s.setTask pid { task with pc := .await mask }
  | .taken _ _, some hint =>
    some <| s.setTask pid { task with signalPendingHint := hint, storing := none, pc := .idle }
  | _, _ => none

-- A task enters a call. The calls that need nothing else but its own state are over then.
def startCall (pid : Nat) (task : SignalTask) : SignalCall → Option (SignalSystem σ)
  | .handlePending =>
    if task.signalPendingHint = 0 then some s else some <| s.setTask pid { task with pc := .scan }
  | .sigaction signum act sigsetSize copied =>
    match (s.actions task.signalActions).sigaction signum act sigsetSize copied with
    | .ok actions => some { s with actions := update s.actions task.signalActions actions }
    | .error _    => some s
  | .sigprocmask how set sigsetSize copied =>
    if task.storing.isSome then none
    else match task.signalState.sigprocmask how set sigsetSize copied with
      | .ok state => some <| s.setTask pid { task with signalState := state }
      | .error _  => some s
  | .sigsuspend mask =>
    if task.storing.isSome then none
    else some <| s.setTask pid { task with signalState := task.signalState.suspend mask, pc := .suspended }
  | .sigtimedwait mask => some <| s.setTask pid { task with pc := .take (sanitizeMask mask) }
  | .sigreturn frameSize frame =>
    if task.storing.isSome then none
    else match task.signalState.sigreturn frameSize frame with
      | .ok state => some <| s.setTask pid { task with signalState := state }
      | .error _  => some s
  | .fork child shareSighand =>
    if task.storing.isSome || (s.tasks child).isSome then none
    else some <| s.fork task child shareSighand
  | .execve =>
    let actions := (s.actions task.signalActions).resetHandlersForExec
    some { s with actions := update s.actions task.signalActions actions }

-- A sleep that ends by a signal, a timeout or another error.
def failSleep (pid : Nat) (task : SignalTask) (err : SysErrNo) : Option (SignalSystem σ) :=
  match task.pc with
  | .await _   => some <| s.setTask pid { task with pc := .idle }
  | .suspended =>
    if task.storing.isSome then none
    else some <| s.setTask pid { task with signalState := task.signalState.resume err, pc := .idle }
  | _          => none

def stepTask (pid : Nat) (task : SignalTask) : SignalAct → Option (SignalSystem σ)
  | .call call => if task.pc = .idle then s.startCall pid task call else none
  | .run       => s.runTask pid task
  | .wake      =>
    match task.pc with
    | .await mask => some <| s.setTask pid { task with pc := .take mask }
    | _           => none
  | .fail err  => s.failSleep pid task err

def goto (sender : σ) [DecidableEq σ] (pc : SendPc) : SignalSystem σ :=
  { s with senders := update s.senders sender pc }

-- A step of a sender.
def runSender [DecidableEq σ] (sender : σ) : SendPc → Option (SignalSystem σ)
  | .idle => none
  | .action target signum info => do
    let task ← s.tasks target
    return s.goto sender (.judgeStop target signum info ((s.actions task.signalActions).get signum))
  | .judgeStop target signum info action => do
    let task ← s.tasks target
    if task.storing.isSome then none
    else if action.handler = SIG_DFL && defaultStops signum &&
        (signum = SIGSTOP || task.signalState.isUnblocked signum) then
      return s.goto sender .idle
    else
      return s.goto sender (.judgeTerminate target signum info action)
  | .judgeTerminate target signum info action => do
    let task ← s.tasks target
    if task.storing.isSome then none
    else if action.handler = SIG_DFL && !defaultIgnored signum && task.signalState.isUnblocked signum then
      return s.goto sender .idle
    else if signum = SIGCONT && action.handler = SIG_DFL then
      return s.goto sender .idle
    else
      return s.goto sender (.post target signum info)
  | .post target signum info => do
    let task ← s.tasks target
    if task.storing.isSome then none
    else
      return ((s.setTask target { task with
        signalState := task.signalState.queue signum info, storing := some 1 }).goto sender (.posted target)).record
          (.queued target signum info)
  | .posted target => do
    let task ← s.tasks target
    let hint ← task.storing
    return (s.setTask target { task with signalPendingHint := hint, storing := none }).goto sender .idle

-- The states that any interleaving of tasks and senders reaches.
inductive Reachable [DecidableEq σ] : SignalSystem σ → Prop
  | initial : Reachable initial
  | spawn {s : SignalSystem σ} {pid : Nat} : Reachable s → s.tasks pid = none → Reachable (s.spawn pid)
  | exit {s : SignalSystem σ} {pid : Nat} : Reachable s → Reachable { s with tasks := update s.tasks pid none }
  | task {s s' : SignalSystem σ} {pid : Nat} {task : SignalTask} {act : SignalAct} : Reachable s →
      s.tasks pid = some task → s.stepTask pid task act = some s' → Reachable s'
  | send {s : SignalSystem σ} {sender : σ} {target : Nat} {signum : Signum} {info : PendingSignalInfo} :
      Reachable s → s.senders sender = .idle → validSignal signum →
      Reachable (s.goto sender (.action target signum info))
  | sender {s s' : SignalSystem σ} {sender : σ} : Reachable s → s.runSender sender (s.senders sender) = some s' →
      Reachable s'

-- Every signal that came to its end did so with the record that was queued last.
structure Sound : Prop where
  tasks : ∀ pid task, s.tasks pid = some task → task.Sound (pendingRecord pid · s.events)
  ended : ∀ later earlier pid signum info how, s.events = later ++ .ended pid signum info how :: earlier →
    pendingRecord pid signum earlier = some info

end SignalSystem

end WllOs
