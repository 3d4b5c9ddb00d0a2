import WllOs.Task.Wait

namespace WllOs

structure IntervalTimer where
  intervalUs : Nat
  deadlineUs : Option Nat
  deriving DecidableEq, Repr

namespace IntervalTimer

def disabled : IntervalTimer := ⟨0, none⟩

-- `deadline_after_us` reads the time.
def fromValue (timeUs intervalUs valueUs : Nat) : IntervalTimer where
  intervalUs
  deadlineUs := if valueUs = 0 then none else some (Usize.saturatingAdd timeUs valueUs)

def nextDeadlineUs (timer : IntervalTimer) : Option Nat := timer.deadlineUs

-- Whether the timer has expired, and what it is afterwards.
def expireAt (timer : IntervalTimer) (nowUs : Nat) : Bool × IntervalTimer :=
  match timer.deadlineUs with
  | none => (false, timer)
  | some deadlineUs =>
    if deadlineUs > nowUs then
      (false, timer)
    else if timer.intervalUs = 0 then
      (true, { timer with deadlineUs := none })
    else
      let missed := (nowUs - deadlineUs) / timer.intervalUs
      let step := Usize.saturatingAdd missed 1
      (true, { timer with
        deadlineUs := some (Usize.saturatingAdd deadlineUs (Usize.saturatingMul timer.intervalUs step)) })

-- A periodic timer keeps to its grid, however late it is looked at.
structure Expires (timer : IntervalTimer) (nowUs : Nat) : Prop where
  fires : (timer.expireAt nowUs).1 = true ↔ ∃ deadlineUs, timer.deadlineUs = some deadlineUs ∧ deadlineUs ≤ nowUs
  early : (timer.expireAt nowUs).1 = false → (timer.expireAt nowUs).2 = timer
  oneShot : (timer.expireAt nowUs).1 = true → timer.intervalUs = 0 → (timer.expireAt nowUs).2.deadlineUs = none
  periodic : ∀ deadlineUs, timer.deadlineUs = some deadlineUs → deadlineUs ≤ nowUs → timer.intervalUs ≠ 0 →
    ∃ next, IsLeast { time | nowUs < time ∧ time ≡ deadlineUs [MOD timer.intervalUs] } next ∧
      (timer.expireAt nowUs).2 = { timer with deadlineUs := some (min next Usize.max) }

end IntervalTimer

-- The timers of a task, one for each clock.
abbrev IntervalTimers := Vector IntervalTimer 3

namespace IntervalTimers

def empty : IntervalTimers := Vector.replicate 3 .disabled

def armed (timers : IntervalTimers) : Bool := timers.any (·.nextDeadlineUs.isSome)

def nextDeadlineUs (timers : IntervalTimers) : Option Nat := (timers.toList.filterMap (·.nextDeadlineUs)).min?

-- The clocks whose timers have expired, and the timers afterwards.
def expireAt (timers : IntervalTimers) (nowUs : Nat) : List (Fin 3) × IntervalTimers :=
  ((List.finRange 3).filter fun which => ((timers.get which).expireAt nowUs).1,
    timers.map fun timer => (timer.expireAt nowUs).2)

end IntervalTimers

-- What a scan of the tasks with active timers has found.
inductive TimerScan
  | expired (nowUs : Nat) (timers : List (Nat × Fin 3))
  | deadline (deadlineUs : Option Nat)
  deriving DecidableEq, Repr

-- What a scan says about a timer with the given deadline: if it has been due, it is among those that have expired, and a
-- deadline that is asked for is not later.
def TimerScan.Covers (task : Nat) (which : Fin 3) (deadlineUs : Nat) : TimerScan → Prop
  | expired nowUs timers => deadlineUs ≤ nowUs → (task, which) ∈ timers
  | deadline next        => ∃ nextUs, next = some nextUs ∧ nextUs ≤ deadlineUs

-- The end of a scan: the timers at its beginning, and the tasks that are alive and not in `sys_setitimer` at its end.
structure TimerEvent where
  timers : Nat → IntervalTimers
  settled : Nat → Bool
  scan : TimerScan

-- The tasks and their timers. `owners` is `ACTIVE_INTERVAL_TIMER_TASKS`, which is weak: a task in it may have been
-- dropped. The last four fields are not read by the kernel: the tasks that have exited, those that have set a timer
-- and not yet entered or left the owners, the timers at the beginning of the scan that is under way, and the scans that
-- have ended.
structure TimerState where
  timeUs : Nat
  status : Nat → TaskStatus
  dropped : Nat → Bool
  timers : Nat → IntervalTimers
  owners : List Nat
  ownersLock : Option KernelCtx
  exited : Nat → Bool
  updating : Nat → Bool
  scanned : Nat → IntervalTimers
  history : List TimerEvent

namespace TimerState

-- No task has a timer. Tasks that are created later are there from the beginning.
def boot : TimerState where
  timeUs := 0
  status _ := .ready
  dropped _ := false
  timers _ := .empty
  owners := []
  ownersLock := none
  exited _ := false
  updating _ := false
  scanned _ := .empty
  history := []

def settled (state : TimerState) (task : Nat) : Bool := !state.exited task && !state.updating task

-- What `retain` keeps in `sync_interval_timer_owner`, and whether it has found the task.
def retainOwners (dropped : Nat → Bool) (task : Nat) (active : Bool) : Bool → List Nat → List Nat × Bool
  | found, [] => ([], found)
  | found, owner :: owners =>
    if dropped owner then
      retainOwners dropped task active found owners
    else if owner ≠ task then
      let (kept, found) := retainOwners dropped task active found owners
      (owner :: kept, found)
    else if active && !found then
      let (kept, found) := retainOwners dropped task active true owners
      (owner :: kept, found)
    else
      retainOwners dropped task active found owners

def syncOwners (dropped : Nat → Bool) (task : Nat) (active : Bool) (owners : List Nat) : List Nat :=
  let (kept, found) := retainOwners dropped task active false owners
  if active && !found then kept ++ [task] else kept

end TimerState

-- The steps of what tasks and interrupts do with timers. `loadTimer` and `storeTimer` hold the lock of the task, and
-- `syncOwner` holds the one of the owners, which a scan holds from `lockOwners` to `unlockOwners`.
inductive TimerInstr : Type → Type
  | elapse (us : Nat) : TimerInstr Unit
  | getTimeUs : TimerInstr Nat
  | setStatus (task : Nat) (status : TaskStatus) : TimerInstr Unit
  | drop (task : Nat) : TimerInstr Unit
  | loadTimer (task : Nat) (which : Fin 3) : TimerInstr IntervalTimer
  | storeTimer (task : Nat) (which : Fin 3) (intervalUs valueUs : Nat) : TimerInstr Bool
  | clearTimers (task : Nat) : TimerInstr Unit
  | syncOwner (task : Nat) (active : Bool) : TimerInstr Unit
  | lockOwners : TimerInstr (List Nat)
  | upgrade (task : Nat) : TimerInstr Bool
  | status (task : Nat) : TimerInstr TaskStatus
  | nextDeadlineUs (task : Nat) : TimerInstr (Option Nat)
  | expireTimers (task nowUs : Nat) : TimerInstr (List (Fin 3) × Bool)
  | unlockOwners (owners : List Nat) (scan : TimerScan) : TimerInstr Unit

namespace TimerInstr

open Function (update)
open TimerState

-- A member of a process is released after it has exited, and it is dropped after that.
def machine : Machine TimerInstr TimerState KernelCtx where
  exec ctx
    | elapse us, state => some ((), { state with timeUs := state.timeUs + us })
    | getTimeUs, state => some (state.timeUs, state)
    | setStatus task next, state =>
      some ((), { state with
        status := update state.status task next
        exited := update state.exited task (state.exited task || next = .zombie) })
    | drop task, state => if state.exited task then some ((), { state with dropped := update state.dropped task true })
      else none
    | loadTimer task which, state => some ((state.timers task).get which, state)
    | storeTimer task which intervalUs valueUs, state =>
      let timers : IntervalTimers := (state.timers task).set which (.fromValue state.timeUs intervalUs valueUs)
      some (timers.armed, { state with
        timers := update state.timers task timers
        updating := update state.updating task true })
    | clearTimers task, state =>
      if state.exited task then some ((), { state with timers := update state.timers task .empty }) else none
    | syncOwner task active, state =>
      if state.ownersLock = none then
        some ((), { state with
          owners := syncOwners state.dropped task active state.owners
          updating := if ctx = .task task then update state.updating task false else state.updating })
      else none
    | lockOwners, state =>
      if state.ownersLock = none then
        some (state.owners, { state with ownersLock := some ctx, scanned := state.timers })
      else none
    | upgrade task, state => some (!state.dropped task, state)
    | .status task, state => some (state.status task, state)
    | nextDeadlineUs task, state => some ((state.timers task).nextDeadlineUs, state)
    | expireTimers task nowUs, state =>
      let (expired, timers) := (state.timers task).expireAt nowUs
      some ((expired, timers.armed), { state with timers := update state.timers task timers })
    | unlockOwners owners scan, state =>
      some ((), { state with
        owners
        ownersLock := none
        history := ⟨state.scanned, state.settled, scan⟩ :: state.history })

end TimerInstr

abbrev TimerM := Prog TimerInstr

open TimerInstr

-- The owners that stay, and the earliest of their deadlines and the given one.
def nextDeadlineOf (nextDeadline : Option Nat) : List Nat → TimerM (List Nat × Option Nat)
  | [] => return ([], nextDeadline)
  | owner :: owners => do
    if !(← upgrade owner) then
      nextDeadlineOf nextDeadline owners
    else if (← status owner) = .zombie then
      nextDeadlineOf nextDeadline owners
    else
      match ← (nextDeadlineUs owner : TimerInstr _) with
      | none => nextDeadlineOf nextDeadline owners
      | some deadline =>
        let (kept, next) ← nextDeadlineOf (some (nextDeadline.elim deadline (min · deadline))) owners
        return (owner :: kept, next)

def nextIntervalTimerDeadlineUs : TimerM (Option Nat) := do
  let owners ← (lockOwners : TimerInstr _)
  let (kept, next) ← nextDeadlineOf none owners
  unlockOwners kept (.deadline next)
  return next

-- The owners that stay, and the timers that have expired.
def expireOwners (nowUs : Nat) : List Nat → TimerM (List Nat × List (Nat × Fin 3))
  | [] => return ([], [])
  | owner :: owners => do
    if !(← upgrade owner) then
      expireOwners nowUs owners
    else if (← status owner) = .zombie then
      expireOwners nowUs owners
    else
      let (expired, armed) ← (expireTimers owner nowUs : TimerInstr _)
      let (kept, more) ← expireOwners nowUs owners
      return (if armed then owner :: kept else kept, expired.map (owner, ·) ++ more)

-- The timers for which signals are sent afterwards.
def wakeExpiredIntervalTimers : TimerM (List (Nat × Fin 3)) := do
  let nowUs ← (getTimeUs : TimerInstr _)
  let owners ← (lockOwners : TimerInstr _)
  let (kept, expired) ← expireOwners nowUs owners
  unlockOwners kept (.expired nowUs expired)
  return expired

-- Once its arguments are checked and copied. It ends with `set_next_trigger`, which asks for the next deadline.
def sysSetitimer (task : Nat) (which : Fin 3) (intervalUs valueUs : Nat) : TimerM Unit := do
  let _ ← (loadTimer task which : TimerInstr _)
  let active ← (storeTimer task which intervalUs valueUs : TimerInstr _)
  syncOwner task active
  let _ ← nextIntervalTimerDeadlineUs

def sysGetitimer (task : Nat) (which : Fin 3) : TimerM IntervalTimer :=
  (loadTimer task which : TimerInstr _)

-- What `release_process_runtime_resources` does to the timers of a member.
def releaseTimers (task : Nat) : TimerM Unit := do
  clearTimers task
  syncOwner task false

-- A task sets its own timers only. All else may be done by any task and in any interrupt.
inductive TimerCall (self : KernelCtx) : {α : Type} → TimerM α → Prop
  | setitimer (task : Nat) (which : Fin 3) (intervalUs valueUs : Nat) : self = .task task →
      TimerCall self (sysSetitimer task which intervalUs valueUs)
  | getitimer (task : Nat) (which : Fin 3) : self = .task task → TimerCall self (sysGetitimer task which)
  | expire : TimerCall self wakeExpiredIntervalTimers
  | nextDeadline : TimerCall self nextIntervalTimerDeadlineUs
  | release (task : Nat) : TimerCall self (releaseTimers task)
  | setStatus (task : Nat) (status : TaskStatus) : TimerCall self (setStatus task status : TimerInstr _)
  | drop (task : Nat) : TimerCall self (drop task : TimerInstr _)
  | elapse (us : Nat) : TimerCall self (elapse us : TimerInstr _)

-- A scan covers every armed timer of a settled task.
def TimerEvent.Found (event : TimerEvent) : Prop :=
  ∀ task which deadlineUs, event.settled task → ((event.timers task).get which).deadlineUs = some deadlineUs →
    event.scan.Covers task which deadlineUs

-- Every live task with an armed timer that is not in `sys_setitimer` is an owner exactly once.
structure TimerState.Tracked (state : TimerState) : Prop where
  owner : ∀ task, state.settled task → (state.timers task).armed → state.owners.count task = 1
  found : ∀ event ∈ state.history, event.Found

end WllOs
