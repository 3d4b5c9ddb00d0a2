import WllOs.Task.Futex

namespace WllOs

open Function (update)

variable {τ : Type} [DecidableEq τ]

-- The operation on the second word of a `FUTEX_WAKE_OP`, and the comparison of its old value.
structure FutexOpArg where
  op : Nat
  oparg : BitVec 32
  cmp : Nat
  cmparg : BitVec 32
  deriving DecidableEq, Repr

def signExtend12 (value : Nat) : BitVec 32 :=
  let value := BitVec.ofNat 32 (value &&& 0xfff)
  if value &&& 0x800 ≠ 0 then value ||| ~~~0xfff else value

def futexWakeOpArg (encoded : Nat) : Option FutexOpArg :=
  let op := (encoded >>> 28) &&& 0xf
  let cmp := (encoded >>> 24) &&& 0xf
  let rawOparg := (encoded >>> 12) &&& 0xfff
  let cmparg := signExtend12 encoded
  if op &&& 8 ≠ 0 then
    if rawOparg ≥ 32 then none else some ⟨op &&& 7, 1 <<< rawOparg, cmp, cmparg⟩
  else
    some ⟨op, signExtend12 rawOparg, cmp, cmparg⟩

namespace FutexOpArg

def apply (arg : FutexOpArg) (old : BitVec 32) : Option (BitVec 32) :=
  match arg.op with
  | 0 => some arg.oparg
  | 1 => some (old + arg.oparg)
  | 2 => some (old ||| arg.oparg)
  | 3 => some (old &&& ~~~arg.oparg)
  | 4 => some (old ^^^ arg.oparg)
  | _ => none

def compare (arg : FutexOpArg) (old : BitVec 32) : Option Bool :=
  match arg.cmp with
  | 0 => some (old == arg.cmparg)
  | 1 => some (old != arg.cmparg)
  | 2 => some (old.slt arg.cmparg)
  | 3 => some (old.sle arg.cmparg)
  | 4 => some (arg.cmparg.slt old)
  | 5 => some (arg.cmparg.sle old)
  | _ => none

end FutexOpArg

-- The arguments of a `FUTEX_WAKE_OP`. `valid` and `valid2` are what `validate_futex_uaddr` says of its addresses, and
-- `read` and `write` access the word at the second one.
structure FutexWakeOp where
  uaddr : Nat
  uaddr2 : Nat
  nrWake : Nat
  nrWake2 : Nat
  encodedOp : Nat
  valid : Except SysErrNo Unit
  valid2 : Except SysErrNo Unit
  read : Memory → Except SysErrNo (BitVec 32)
  write : BitVec 32 → Memory → Except SysErrNo Memory
  addrKey : Except SysErrNo (Nat × Nat)
  addrKey2 : Except SysErrNo (Nat × Nat)

namespace FutexWakeOp

-- The memory after the operation, and whether the waiters of the second word are to be woken as well.
def operate (args : FutexWakeOp) (memory : Memory) : Memory × Except SysErrNo Bool :=
  match args.valid, args.valid2 with
  | .error error, _           => (memory, .error error)
  | .ok _,        .error error => (memory, .error error)
  | .ok _,        .ok _        =>
    match futexWakeOpArg args.encodedOp with
    | none => (memory, .error .EINVAL)
    | some arg =>
      match args.read memory with
      | .error error => (memory, .error error)
      | .ok old =>
        match arg.apply old with
        | none => (memory, .error .EINVAL)
        | some new =>
          match args.write new memory with
          | .error error => (memory, .error error)
          | .ok memory =>
            match arg.compare old with
            | none            => (memory, .error .EINVAL)
            | some cmpMatches => (memory, .ok cmpMatches)

-- An operation or a comparison that there is none of.
def Invalid (args : FutexWakeOp) : Prop :=
  ∀ arg, futexWakeOpArg args.encodedOp = some arg → 4 < arg.op ∨ 5 < arg.cmp

end FutexWakeOp

def futexWakeAddrBitset (uaddr : Nat) (addrKey : Except SysErrNo (Nat × Nat)) (n : Nat) (bitset : BitVec 64) :
    WaitM τ (Except SysErrNo Nat) := do
  if uaddr = 0 ∨ n = 0 then
    return .ok 0
  else
    match addrKey with
    | .error error     => return .error error
    | .ok (addr, key) => return .ok (← futexWakeAddrKey addr key n bitset)

-- The part of `futex_wake_op` that follows the operation.
def futexWakeOpWake (args : FutexWakeOp) (cmpMatches : Bool) : WaitM τ (Except SysErrNo Nat) := do
  match ← futexWakeAddrBitset args.uaddr args.addrKey args.nrWake (BitVec.allOnes 64) with
  | .error error => return .error error
  | .ok woke =>
    if cmpMatches then
      match ← futexWakeAddrBitset args.uaddr2 args.addrKey2 args.nrWake2 (BitVec.allOnes 64) with
      | .error error => return .error error
      | .ok woke2    => return .ok (woke + woke2)
    else
      return .ok woke

-- The operations on the waiters of futexes.
inductive FutexCall
  | wake (uaddr key n : Nat) (bitset : BitVec 64)
  | requeue (args : FutexRequeue)
  | wakeOp (args : FutexWakeOp)

-- The outcome of an operation that no other thread interferes with.
def FutexCall.Runs (call : FutexCall) (thread : τ) (state : WaitState τ) (result : Except SysErrNo Nat)
    (state' : WaitState τ) : Prop :=
  match call with
  | wake uaddr key n bitset =>
    ∃ count, result = .ok count ∧
      Prog.Runs WaitInstr.machine thread (futexWakeAddrKey uaddr key n bitset) state count state'
  | requeue args => Prog.Runs WaitInstr.machine thread (futexRequeueAddr args) state result state'
  | wakeOp args =>
    match args.operate state.memory with
    | (memory, .error error)   => result = .error error ∧ state' = { state with memory }
    | (memory, .ok cmpMatches) =>
      Prog.Runs WaitInstr.machine thread (futexWakeOpWake args cmpMatches) { state with memory } result state'

-- A waiter is live if `wake_task_token_with` wakes it. The others are stale.
def WaitState.live (state : WaitState τ) (entry : WaitEntry τ) : Bool :=
  sameToken (state.tasks entry.task).waitToken entry.token &&
    ((state.tasks entry.task).status = .blocked || (state.tasks entry.task).blockReason.isSome)

def Waiter.wake (waiter : Waiter τ) : Waiter τ :=
  if waiter.status = .blocked then
    { waiter with status := .ready, blockReason := none, waitOutcome := some .woken }
  else
    { waiter with waitOutcome := some .woken }

-- The tasks after the given waiters are woken, one after the other.
def wakeEntries (tasks : τ → Waiter τ) (entries : List (WaitEntry τ)) : τ → Waiter τ :=
  entries.foldl (fun tasks entry => update tasks entry.task (tasks entry.task).wake) tasks

-- Nobody is in the middle of a wake, and a task waits for one futex at most.
structure WaitState.FutexQuiet (state : WaitState τ) : Prop where
  unlocked : ∀ task, (state.tasks task).statusLock = none
  once : ((state.queues .futex).map (·.task)).Nodup

namespace WaitState

variable (state state' : WaitState τ)

-- The live waiters of a futex, in the order in which they have registered.
def waitersFor (filter : WakeFilter) : List (WaitEntry τ) :=
  (state.queues .futex).filter fun entry => state.live entry && filter.accepts entry.key

-- A wake is for the first `n` live waiters, and no other live waiter is removed.
structure WakesFirst (filter : WakeFilter) (n count : Nat) : Prop where
  count : count = ((state.waitersFor filter).take n).length
  tasks : state'.tasks = wakeEntries state.tasks ((state.waitersFor filter).take n)
  sublist : (state'.queues .futex).Sublist (state.queues .futex)
  kept : (state'.queues .futex).filter state.live =
    ((state.queues .futex).filter state.live).filter (· ∉ (state.waitersFor filter).take n)
  memory : state'.memory = state.memory

-- A requeue wakes the first live waiters and moves the ones that follow. The other live waiters stay where they are.
structure Requeues (filter : WakeFilter) (addr2 key2 nrWake nrRequeue count : Nat) : Prop where
  count : count = ((state.waitersFor filter).take nrWake).length +
    (((state.waitersFor filter).drop nrWake).take nrRequeue).length
  tasks : state'.tasks = wakeEntries state.tasks ((state.waitersFor filter).take nrWake)
  kept : (state'.queues .futex).filter state.live =
    (((state.queues .futex).filter state.live).filter (· ∉ (state.waitersFor filter).take nrWake)).map fun entry =>
      if entry ∈ ((state.waitersFor filter).drop nrWake).take nrRequeue then
        { entry with key := WaitInstr.EntryKey.requeued addr2 key2 entry.key }
      else entry
  memory : state'.memory = state.memory

end WaitState

-- The checks of a requeue, and the futexes that it is about.
def FutexRequeue.target (args : FutexRequeue) (memory : Memory) : Except SysErrNo ((Nat × Nat) × (Nat × Nat)) := do
  args.valid
  if ← args.mayRequeue memory then
    return (← args.addrKey, ← args.addrKey2)
  else
    throw .EAGAIN

-- What an operation is to do. No futex is at the address 0, and an operation that fails changes nothing, except that
-- it is not said what the wakes of a valid `FUTEX_WAKE_OP` do.
def FutexCall.Meets (call : FutexCall) (state : WaitState τ) (result : Except SysErrNo Nat) (state' : WaitState τ) : Prop :=
  match call with
  | wake uaddr key n bitset =>
    uaddr ≠ 0 → ∃ count, result = .ok count ∧ state.WakesFirst state' (.futex uaddr key bitset) n count
  | requeue args =>
    match args.target state.memory with
    | .error error => result = .error error ∧ state'.tasks = state.tasks ∧ state'.queues = state.queues ∧
        state'.memory = state.memory
    | .ok ((addr, key), (addr2, key2)) => ∃ count, result = .ok count ∧
        state.Requeues state' (.futexKey addr key) addr2 key2 args.nrWake args.nrRequeue count
  | wakeOp args => args.Invalid → state'.tasks = state.tasks ∧ state'.queues = state.queues ∧ state'.memory = state.memory

-- The operation comes to an end, and does what it is to do.
def FutexCall.Correct (call : FutexCall) (thread : τ) (state : WaitState τ) : Prop :=
  (∃ result state', call.Runs thread state result state') ∧
    ∀ result state', call.Runs thread state result state' → call.Meets state result state'

-- A requeue counts stale waiters as it counts live ones, and `FUTEX_WAKE_OP` looks at its comparison after it has written
-- the word.
def FutexCall.Sound (call : FutexCall) (state : WaitState τ) : Prop :=
  match call with
  | wake _ _ _ _ => True
  | requeue args => ∀ addr key addr2 key2, args.target state.memory = .ok ((addr, key), (addr2, key2)) →
      let waiters := (state.queues .futex).filter ((WakeFilter.futexKey addr key).accepts ·.key)
      let rest := waiters.drop args.nrWake
      ((∀ entry ∈ waiters.take args.nrWake, state.live entry) ∨ ∀ entry ∈ rest, ¬state.live entry) ∧
      ((∀ entry ∈ rest.take args.nrRequeue, state.live entry) ∨
        (addr2, key2) = (addr, key) ∧ args.nrRequeue ≤ (rest.filter state.live).length)
  | wakeOp args => ∀ arg old new memory, args.valid = .ok () → args.valid2 = .ok () →
      futexWakeOpArg args.encodedOp = some arg → args.read state.memory = .ok old → arg.apply old = some new →
      arg.compare old = none → args.write new state.memory = .ok memory → memory = state.memory

end WllOs
