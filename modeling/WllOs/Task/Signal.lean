import WllOs.Mm.Basic

namespace WllOs

def MAX_SIGNAL : Nat := 64

def SIG_DFL : BitVec 64 := 0
def SIG_IGN : BitVec 64 := 1

structure KernelSigAction where
  handler : BitVec 64
  flags : BitVec 64
  restorer : BitVec 64
  mask : BitVec 64
  deriving DecidableEq, Repr

def DEFAULT_SIGACTION : KernelSigAction where
  handler := SIG_DFL
  flags := 0
  restorer := 0
  mask := 0

-- Signals are numbered from one on, so that the first entry is not used.
@[ext]
structure SignalActions where
  table : Fin (MAX_SIGNAL + 1) → KernelSigAction

namespace SignalActions

def new : SignalActions where
  table _ := DEFAULT_SIGACTION

variable (actions : SignalActions)

def get (signum : Fin (MAX_SIGNAL + 1)) : KernelSigAction :=
  actions.table signum

def set (signum : Fin (MAX_SIGNAL + 1)) (action : KernelSigAction) : SignalActions where
  table := Function.update actions.table signum action

-- The body of the loop of `reset_signal_handlers_for_exec`.
def resetHandler (signum : Fin (MAX_SIGNAL + 1)) : SignalActions :=
  if (actions.get signum).handler > SIG_IGN then actions.set signum DEFAULT_SIGACTION else actions

def resetHandlersForExec : SignalActions :=
  ((List.finRange (MAX_SIGNAL + 1)).filter (1 ≤ ·.val)).foldl resetHandler actions

end SignalActions

abbrev Signum := Fin (MAX_SIGNAL + 1)

def SIGKILL : Signum := 9
def SIGCHLD : Signum := 17
def SIGCONT : Signum := 18
def SIGSTOP : Signum := 19
def SIGTSTP : Signum := 20
def SIGTTIN : Signum := 21
def SIGTTOU : Signum := 22
def SIGURG : Signum := 23
def SIGWINCH : Signum := 28

def SIG_BLOCK : Int := 0
def SIG_UNBLOCK : Int := 1
def SIG_SETMASK : Int := 2

def SA_NODEFER : BitVec 64 := 0x40000000
def SA_RESETHAND : BitVec 64 := 0x80000000

-- The flags of `KNOWN_SIGACTION_FLAGS`, from `SA_NOCLDSTOP` to `SA_RESETHAND`.
def KNOWN_SIGACTION_FLAGS : BitVec 64 :=
  0x1 ||| 0x2 ||| 0x4 ||| 0x800 ||| 0x4000000 ||| 0x8000000 ||| 0x10000000 ||| 0x20000000 ||| SA_NODEFER ||| SA_RESETHAND

def SA_UNSUPPORTED : BitVec 64 := 0x400

def KERNEL_SIGSET_SIZE : Nat := 8

def SIGNAL_FRAME_MAGIC : BitVec 64 := 0x574c4c5f53494746

def validSignal (signum : Signum) : Bool :=
  signum > 0

def signalBit (signum : Signum) : BitVec 64 :=
  1#64 <<< (signum.val - 1)

def unblockableMask : BitVec 64 :=
  signalBit SIGKILL ||| signalBit SIGSTOP

def sanitizeMask (mask : BitVec 64) : BitVec 64 :=
  mask &&& ~~~unblockableMask

def sanitizeFlags (flags : BitVec 64) : BitVec 64 :=
  flags &&& KNOWN_SIGACTION_FLAGS &&& ~~~SA_UNSUPPORTED

def cannotCatchOrIgnore (signum : Signum) : Bool :=
  signum = SIGKILL || signum = SIGSTOP

def defaultIgnored (signum : Signum) : Bool :=
  signum = SIGCHLD || signum = SIGCONT || signum = SIGURG || signum = SIGWINCH

def defaultStops (signum : Signum) : Bool :=
  signum = SIGSTOP || signum = SIGTSTP || signum = SIGTTIN || signum = SIGTTOU

-- A `UserSigAction` has the fields of an action.
def kernelAction (action : KernelSigAction) : KernelSigAction :=
  { action with flags := sanitizeFlags action.flags, mask := sanitizeMask action.mask }

-- The signal of the lowest bit of a mask.
def lowestSignal (mask : BitVec 64) : Option Signum :=
  (List.finRange (MAX_SIGNAL + 1)).find? fun signum => validSignal signum && mask &&& signalBit signum ≠ 0

structure PendingSignalInfo where
  code : Int
  senderPid : Int
  senderUid : BitVec 32
  deriving DecidableEq, Repr

-- The code is `SI_USER`.
def PendingSignalInfo.empty : PendingSignalInfo where
  code := 0
  senderPid := 0
  senderUid := 0

structure SignalState where
  blocked : BitVec 64
  pending : BitVec 64
  pendingInfo : Signum → PendingSignalInfo
  suspendOldMask : Option (BitVec 64)

namespace SignalState

def new : SignalState where
  blocked := 0
  pending := 0
  pendingInfo _ := .empty
  suspendOldMask := none

def forkFrom (blocked : BitVec 64) : SignalState :=
  { new with blocked := sanitizeMask blocked }

variable (state : SignalState)

-- What the writers of `pending` store in the hint, which is read without the lock on the state.
def pendingHint : Nat :=
  if state.pending ≠ 0 then 1 else 0

def isUnblocked (signum : Signum) : Bool :=
  state.blocked &&& signalBit signum = 0

def nextUnblockedPending : Option Signum :=
  lowestSignal (state.pending &&& ~~~state.blocked)

-- The part of `queue_signal` that has the lock.
def queue (signum : Signum) (info : PendingSignalInfo) : SignalState :=
  { state with
    pending := state.pending ||| signalBit signum
    pendingInfo := Function.update state.pendingInfo signum info }

def clearPending (signum : Signum) : SignalState :=
  { state with
    pending := state.pending &&& ~~~signalBit signum
    pendingInfo := Function.update state.pendingInfo signum .empty }

def takePendingFromMask (mask : BitVec 64) : Option (Signum × PendingSignalInfo × SignalState) :=
  (lowestSignal (state.pending &&& mask)).map fun signum =>
    (signum, state.pendingInfo signum, state.clearPending signum)

-- The part of `handle_pending_for_task` that has the lock, with the mask and the record for the frame.
def deliver (signum : Signum) (action : KernelSigAction) : BitVec 64 × PendingSignalInfo × SignalState :=
  let oldMask := state.suspendOldMask.getD state.blocked
  let blocked := oldMask ||| action.mask
  let blocked := if action.flags &&& SA_NODEFER = 0 then blocked ||| signalBit signum else blocked
  (oldMask, state.pendingInfo signum,
    { state.clearPending signum with blocked := sanitizeMask blocked, suspendOldMask := none })

-- The mask is the one that is read from user memory, if there is one. The old mask is copied out before.
def sigprocmask (how : Int) (set : Option (BitVec 64)) (sigsetSize : Nat) (copied : Except SysErrNo Unit) :
    Except SysErrNo SignalState :=
  if sigsetSize ≠ KERNEL_SIGSET_SIZE then .error .EINVAL
  else do
    copied
    match set with
    | none      => .ok state
    | some mask =>
      if how = SIG_BLOCK then .ok { state with blocked := sanitizeMask (state.blocked ||| mask) }
      else if how = SIG_UNBLOCK then .ok { state with blocked := sanitizeMask (state.blocked &&& ~~~mask) }
      else if how = SIG_SETMASK then .ok { state with blocked := sanitizeMask mask }
      else .error .EINVAL

-- The mask comes from `read_sigset`.
def suspend (mask : BitVec 64) : SignalState :=
  { state with suspendOldMask := some state.blocked, blocked := sanitizeMask mask }

-- The end of `sigsuspend`. After a signal, the mask is for `deliver`.
def resume (err : SysErrNo) : SignalState :=
  if err = .EINTR then state
  else match state.suspendOldMask with
    | some oldMask => { state with suspendOldMask := none, blocked := oldMask }
    | none         => state

end SignalState

-- What `sigreturn` reads of a frame: everything in it may be forged.
structure SignalFrame where
  magic : BitVec 64
  frameSize : Nat
  sigmask : BitVec 64

-- `frameSize` is the size of a frame on this architecture.
def SignalState.sigreturn (state : SignalState) (frameSize : Nat) (frame : SignalFrame) : Except SysErrNo SignalState :=
  if frame.magic ≠ SIGNAL_FRAME_MAGIC || frame.frameSize ≠ frameSize then .error .EINVAL
  else .ok { state with blocked := sanitizeMask frame.sigmask }

-- `sys_sigaction`, with the action that is read from user memory, if there is one.
def SignalActions.sigaction (actions : SignalActions) (signum : Signum) (act : Option KernelSigAction)
    (sigsetSize : Nat) (copied : Except SysErrNo Unit) : Except SysErrNo SignalActions :=
  if !validSignal signum || cannotCatchOrIgnore signum then .error .EINVAL
  else if sigsetSize ≠ KERNEL_SIGSET_SIZE then .error .EINVAL
  else do
    copied
    match act with
    | some action => .ok (actions.set signum (kernelAction action))
    | none        => .ok actions

end WllOs
