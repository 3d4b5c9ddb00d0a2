import WllOs.Task.Wait

namespace WllOs

-- What follows `release_vfork_parent`. The end of a process goes on with its children and its parent.
inductive ReleaseTail
  | exec
  | finish (group : Nat) (parent : Option Nat)

-- Where a context is in the kernel. At `user`, a task runs its program once it is scheduled.
inductive VforkPc
  | user
  -- `sys_clone` with `CLONE_VFORK`: `prepare_current_deferred_block`, `add_task_front`, `commit_current_deferred_block`.
  | prepare (child : Nat)
  | announce (child : Nat)
  | publish (child : Nat)
  | commit
  | take
  | block
  | recheck
  | unblock
  | clear
  -- `release_vfork_parent` and `wake_deferred_block`
  | release (task : Nat) (tail : ReleaseTail)
  | wakeDeferred (target task : Nat) (tail : ReleaseTail)
  | wakeDeferredWrite (target task : Nat) (tail : ReleaseTail)
  -- The rest of `finish_process_exit`.
  | orphans (group : Nat) (parent : Option Nat)
  | directed (parent : Option Nat)
  -- `wake_blocked_task` and `wake_task_token_with`
  | wake (target : Nat) (outcome : WaitOutcome)
  | wakeWrite (target : Nat) (outcome : WaitOutcome)
  -- `stop_task_group` and `continue_task_group`, for one member.
  | stopping (target : Nat)
  | continuing (target : Nat)

-- `isVfork` says that `clone_flags` has `CLONE_VFORK`. The kernel does not read the last two fields: whether the task has
-- exited, and the child that its last `vfork` has made.
structure VforkTask where
  status : TaskStatus
  statusLock : Option KernelCtx
  blockReason : Option BlockReason
  waitOutcome : Option WaitOutcome
  isVfork : Bool
  isThread : Bool
  parent : Option Nat
  group : Nat
  queued : Bool
  hasExeced : Bool
  exited : Bool
  vforkChild : Option Nat

-- Tasks are told apart by their control blocks, so that no identifier is used twice. Those from `next` on are not in use.
structure VforkSystem where
  tasks : Nat → VforkTask
  processZombie : Nat → Bool
  orphanReaper : Option Nat
  pc : KernelCtx → VforkPc
  next : Nat

-- `wake` stands for signals, wait queues and timers: they wake a task that they have found before.
inductive VforkAct
  | yield
  | sleep (reason : BlockReason)
  | clone (isVfork isThread : Bool)
  | exec
  | exit
  | kill (target : Nat)
  | finish (target : Nat)
  | wake (target : Nat) (outcome : WaitOutcome)
  | stop (target : Nat)
  | continue (target : Nat)
  | run

namespace VforkSystem

open Function (update)

variable (s : VforkSystem)

def setTask (t : Nat) (task : VforkTask) : VforkSystem :=
  { s with tasks := update s.tasks t task }

def goto (ctx : KernelCtx) (pc : VforkPc) : VforkSystem :=
  { s with pc := update s.pc ctx pc }

-- The task is in its program.
def runsUser (t : Nat) : Bool :=
  (s.tasks t).status = .running

-- A context that is not in a call. A task that has exited still ends the other members of its group.
def mayAct : KernelCtx → Bool
  | .task t      => t < s.next && (s.runsUser t || (s.tasks t).exited)
  | .interrupt _ => true

def tailPc : ReleaseTail → VforkPc
  | .exec                => .user
  | .finish group parent => .orphans group parent

-- The children of a process that has ended get another parent.
def adopt (group t : Nat) : VforkTask :=
  if (s.tasks t).parent.any (fun p => (s.tasks p).group = group) && !(s.tasks t).isThread then
    { s.tasks t with parent := s.orphanReaper }
  else s.tasks t

-- The next step of a task in `sys_clone`. Steps that change a status have its lock.
def advanceClone (t : Nat) : VforkPc → Option VforkSystem
  | .prepare child =>
    some <| (s.setTask t { s.tasks t with waitOutcome := none }).goto (.task t) (.announce child)
  | .announce child =>
    some <| (s.setTask t { s.tasks t with blockReason := some .childExit }).goto (.task t) (.publish child)
  | .publish child => some <| (s.setTask child { s.tasks child with queued := true }).goto (.task t) .commit
  | .commit => some <| s.goto (.task t) (if (s.tasks t).blockReason = some .childExit then .take else .user)
  | .take =>
    if (s.tasks t).waitOutcome.isSome then
      some <| (s.setTask t { s.tasks t with waitOutcome := none }).goto (.task t) .clear
    else some <| s.goto (.task t) .block
  | .block =>
    if (s.tasks t).statusLock.isSome then none
    else if (s.tasks t).status = .running then
      some <| (s.setTask t { s.tasks t with status := .blocked }).goto (.task t) .recheck
    else some <| s.goto (.task t) .clear
  | .recheck =>
    if (s.tasks t).waitOutcome.isSome then
      some <| (s.setTask t { s.tasks t with waitOutcome := none }).goto (.task t) .unblock
    else some <| s.goto (.task t) .user
  | .unblock =>
    if (s.tasks t).statusLock.isSome then none
    else if (s.tasks t).status = .blocked || (s.tasks t).status = .ready then
      some <| (s.setTask t { s.tasks t with status := .running }).goto (.task t) .clear
    else some <| s.goto (.task t) .clear
  | .clear => some <| (s.setTask t { s.tasks t with blockReason := none }).goto (.task t) .user
  | _ => none

-- The next step of a context in a call.
def advance (ctx : KernelCtx) : VforkPc → Option VforkSystem
  | .user => none
  | .release task tail =>
    match (s.tasks task).isVfork, (s.tasks task).parent with
    | true, some target => some <| s.goto ctx (.wakeDeferred target task tail)
    | _, _              => some <| s.goto ctx (tailPc tail)
  | .wakeDeferred target task tail =>
    if (s.tasks target).statusLock.isSome then none
    else if (s.tasks target).blockReason = some .childExit then
      some <| (s.setTask target { s.tasks target with statusLock := some ctx }).goto ctx (.wakeDeferredWrite target task tail)
    else some <| s.goto ctx (tailPc tail)
  | .wakeDeferredWrite target _ tail =>
    if (s.tasks target).status ≠ .blocked then
      some <| (s.setTask target { s.tasks target with waitOutcome := some .woken, statusLock := none }).goto ctx (tailPc tail)
    else
      some <| (s.setTask target { s.tasks target with
        status := .ready, blockReason := none, queued := true, statusLock := none }).goto ctx (tailPc tail)
  | .orphans group parent =>
    some <| { s with tasks := s.adopt group }.goto ctx (.directed parent)
  -- For `wait4`, but a parent that waits for the child of its `vfork` has the same reason.
  | .directed parent =>
    match parent with
    | some target =>
      some <| s.goto ctx (if (s.tasks target).blockReason = some .childExit then .wake target .woken else .user)
    | none => some <| s.goto ctx .user
  | .wake target outcome =>
    if (s.tasks target).statusLock.isSome then none
    else if (s.tasks target).status ≠ .blocked && (s.tasks target).blockReason.isNone then some <| s.goto ctx .user
    else
      some <| (s.setTask target { s.tasks target with statusLock := some ctx }).goto ctx (.wakeWrite target outcome)
  | .wakeWrite target outcome =>
    if (s.tasks target).status ≠ .blocked then
      some <| (s.setTask target { s.tasks target with waitOutcome := some outcome, statusLock := none }).goto ctx .user
    else
      some <| (s.setTask target { s.tasks target with
        status := .ready, blockReason := none, waitOutcome := some outcome, queued := true, statusLock := none }).goto
          ctx .user
  | .stopping target =>
    if (s.tasks target).statusLock.isSome then none
    else
      some <| (s.setTask target { s.tasks target with
        status := .stopped, blockReason := none, waitOutcome := none, queued := false }).goto ctx .user
  | .continuing target =>
    if (s.tasks target).statusLock.isSome then none
    else some <| (s.setTask target { s.tasks target with status := .ready, queued := true }).goto ctx .user
  | pc =>
    match ctx with
    | .task t      => s.advanceClone t pc
    | .interrupt _ => none

-- The child of a `vfork` enters the ready queue later than the others.
def clone (t : Nat) (isVfork isThread : Bool) : VforkSystem :=
  let parent := s.tasks t
  let child : VforkTask := {
    status := .ready
    statusLock := none
    blockReason := none
    waitOutcome := none
    isVfork
    isThread
    parent := if isThread then parent.parent else some t
    group := if isThread then parent.group else s.next
    queued := !isVfork
    hasExeced := false
    exited := false
    vforkChild := none }
  let s' := { s with
    tasks := update (update s.tasks s.next child) t { parent with
      vforkChild := if isVfork then some s.next else parent.vforkChild }
    next := s.next + 1 }
  s'.goto (.task t) (if isVfork then .prepare s.next else .user)

-- A task that runs enters a call.
def startOwn (t : Nat) : VforkAct → Option VforkSystem
  | .clone isVfork isThread => some <| s.clone t isVfork isThread
  | .exec => some <| (s.setTask t { s.tasks t with hasExeced := true }).goto (.task t) (.release t .exec)
  | .exit =>
    if (s.tasks t).statusLock.isSome then none
    else
      some <| s.setTask t { s.tasks t with
        status := .zombie, blockReason := none, waitOutcome := none, queued := false, exited := true }
  | .yield =>
    if (s.tasks t).statusLock.isSome then none
    else some <| s.setTask t { s.tasks t with status := .ready, blockReason := none, queued := true }
  | .sleep reason =>
    if (s.tasks t).statusLock.isSome then none
    else some <| s.setTask t { s.tasks t with status := .blocked, blockReason := some reason }
  | _ => none

-- A context enters a call.
def start (ctx : KernelCtx) : VforkAct → Option VforkSystem
  | .kill target =>
    if s.next ≤ target || (s.tasks target).statusLock.isSome || (s.tasks target).status = .zombie then none
    else
      some <| s.setTask target { s.tasks target with
        status := .zombie, blockReason := none, waitOutcome := none, queued := false, exited := true }
  | .finish target =>
    let task := s.tasks target
    if !task.exited || s.processZombie task.group then none
    else
      some <| { s with processZombie := update s.processZombie task.group true }.goto ctx
        (.release target (.finish task.group task.parent))
  | .wake target outcome => if target < s.next then some <| s.goto ctx (.wake target outcome) else none
  | .stop target =>
    if target < s.next && (s.tasks target).status ≠ .zombie then some <| s.goto ctx (.stopping target) else none
  | .continue target =>
    if target < s.next && (s.tasks target).status = .stopped then some <| s.goto ctx (.continuing target) else none
  | act =>
    match ctx with
    | .task t      => if s.runsUser t then s.startOwn t act else none
    | .interrupt _ => none

def step (ctx : KernelCtx) (act : VforkAct) : Option VforkSystem :=
  match act, s.pc ctx with
  | .run, pc  => s.advance ctx pc
  | _,  .user => if s.mayAct ctx then s.start ctx act else none
  | _,  _     => none

-- A processor takes a task from the ready queue when the thread of the task is out of the kernel.
def schedule (t : Nat) : Option VforkSystem :=
  match s.pc (.task t) with
  | .user =>
    if (s.tasks t).status = .ready && (s.tasks t).queued && (s.tasks t).statusLock.isNone then
      some <| s.setTask t { s.tasks t with status := .running, queued := false }
    else none
  | _ => none

-- A task that has not exited, and the child of its last `vfork`, which has neither executed a new program nor exited.
structure Suspended (p child : Nat) : Prop where
  vforkChild : (s.tasks p).vforkChild = some child
  alive : (s.tasks p).exited = false
  execed : (s.tasks child).hasExeced = false
  exited : (s.tasks child).exited = false

-- Nothing but the release by this child wakes a task that is suspended, and it is not continued after a stop.
-- What is recorded before `prepare` is forgotten there.
def KeepsSuspended (ctx : KernelCtx) (act : VforkAct) : Prop :=
  match act, s.pc ctx with
  | .run, .wakeDeferredWrite target task _ =>
    ∀ child, s.Suspended target child → task = child ∨ ∃ child', s.pc (.task target) = .prepare child'
  | .run, .wakeWrite target _ => ∀ child, s.Suspended target child → ∃ child', s.pc (.task target) = .prepare child'
  | .run, .continuing target  => ∀ child, ¬s.Suspended target child
  | _, _                      => True

-- A single task that runs.
def initial : VforkSystem where
  tasks t := {
    status := if t = 0 then .running else .zombie
    statusLock := none
    blockReason := none
    waitOutcome := none
    isVfork := false
    isThread := false
    parent := none
    group := t
    queued := false
    hasExeced := false
    exited := false
    vforkChild := none }
  processZombie _ := false
  orphanReaper := some 0
  pc _ := .user
  next := 1

inductive Reachable (p : VforkSystem → KernelCtx → VforkAct → Prop) : VforkSystem → Prop
  | initial : Reachable p initial
  | step {s s' : VforkSystem} {ctx : KernelCtx} {act : VforkAct} : Reachable p s → p s ctx act →
      s.step ctx act = some s' → Reachable p s'
  | schedule {s s' : VforkSystem} {t : Nat} : Reachable p s → s.schedule t = some s' → Reachable p s'

-- A task whose `vfork` has returned is neither running nor ready while it is suspended.
def Waits : Prop :=
  ∀ p child, s.Suspended p child → s.pc (.task p) = .user → (s.tasks p).status ≠ .running ∧ (s.tasks p).status ≠ .ready

end VforkSystem

end WllOs
