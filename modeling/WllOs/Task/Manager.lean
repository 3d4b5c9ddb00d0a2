import WllOs.Task.Wait

namespace WllOs

def SCHED_FIFO : Nat := 1

def SCHED_RR : Nat := 2

def RT_LOWER_RUN_BUDGET : Nat := 1

-- The part of a task that scheduling depends on.
structure SchedTask where
  pid : Nat
  isKernel : Bool
  status : TaskStatus
  schedPolicy : Nat
  schedPriority : Nat
  affinityMask : BitVec 64

def SchedTask.effectiveSchedPriority (task : SchedTask) : Nat :=
  if task.schedPolicy = SCHED_FIFO ∨ task.schedPolicy = SCHED_RR then task.schedPriority else 0

variable {τ : Type}

structure ReadyQueue (τ : Type) where
  tasks : List τ
  queuedPids : Finset Nat

-- Both ready queues, and the tasks they are about. The counter is shared by the queues.
structure Scheduler (τ : Type) where
  tasks : τ → SchedTask
  user : ReadyQueue τ
  kernel : ReadyQueue τ
  rtRunsSinceNormal : Nat
  onlineCpuMask : BitVec 64

namespace ReadyQueue

def empty : ReadyQueue τ :=
  ⟨[], ∅⟩

variable (pid : τ → Nat)

-- The set of pids mirrors the queue.
structure Mirrors (queue : ReadyQueue τ) : Prop where
  nodup : (queue.tasks.map pid).Nodup
  pids : queue.queuedPids = (queue.tasks.map pid).toFinset

def pushBack (queue : ReadyQueue τ) (task : τ) : ReadyQueue τ :=
  if pid task ∈ queue.queuedPids then queue
  else ⟨queue.tasks ++ [task], insert (pid task) queue.queuedPids⟩

def pushFront (queue : ReadyQueue τ) (task : τ) : ReadyQueue τ :=
  if pid task ∈ queue.queuedPids then queue
  else ⟨task :: queue.tasks, insert (pid task) queue.queuedPids⟩

def removeAt (queue : ReadyQueue τ) (index : Nat) : Option (τ × ReadyQueue τ) :=
  queue.tasks[index]?.map fun task => (task, ⟨queue.tasks.eraseIdx index, queue.queuedPids.erase (pid task)⟩)

def removeTaskInstances [DecidableEq τ] (queue : ReadyQueue τ) (task : τ) : ReadyQueue τ :=
  queue.tasks.foldl (fun kept queued =>
    if queued = task ∨ pid queued = pid task then
      { kept with queuedPids := kept.queuedPids.erase (pid queued) }
    else
      { kept with tasks := kept.tasks ++ [queued] }) ⟨[], queue.queuedPids⟩

def retain (queue : ReadyQueue τ) (keep : τ → Bool) : ReadyQueue τ :=
  queue.tasks.foldl (fun kept task => if keep task then kept.pushBack pid task else kept) empty

end ReadyQueue

-- What a scan of a queue has found. The tasks in `kept` have been scanned and stay in the queue, so the index of the
-- task that is scanned next is their number.
structure QueueScan (τ : Type) where
  kept : List τ
  queuedPids : Finset Nat
  bestIndex : Option Nat
  bestPriority : Nat
  lowerRtIndex : Option Nat
  lowerRtPriority : Nat

namespace Scheduler

def pid (sched : Scheduler τ) (task : τ) : Nat :=
  (sched.tasks task).pid

def priority (sched : Scheduler τ) (task : τ) : Nat :=
  (sched.tasks task).effectiveSchedPriority

def canRunOnCpu (sched : Scheduler τ) (task : τ) (cpu : Nat) : Bool :=
  (sched.tasks task).affinityMask &&& sched.onlineCpuMask &&& (1#64 <<< cpu) ≠ 0

def isReady (sched : Scheduler τ) (task : τ) : Bool :=
  (sched.tasks task).status = .ready

def queue (sched : Scheduler τ) (kernel : Bool) : ReadyQueue τ :=
  if kernel then sched.kernel else sched.user

def setQueue (sched : Scheduler τ) (kernel : Bool) (queue : ReadyQueue τ) : Scheduler τ :=
  if kernel then { sched with kernel := queue } else { sched with user := queue }

-- A task that is to run on the current processor is compared with what has been found so far.
def consider (sched : Scheduler τ) (scan : QueueScan τ) (task : τ) : QueueScan τ :=
  let index := scan.kept.length
  let priority := sched.priority task
  if priority > scan.bestPriority then
    if scan.bestPriority > 0 ∧ scan.bestPriority > scan.lowerRtPriority then
      { scan with
        lowerRtIndex := scan.bestIndex, lowerRtPriority := scan.bestPriority
        bestIndex := some index, bestPriority := priority }
    else
      { scan with bestIndex := some index, bestPriority := priority }
  else if priority > 0 ∧ priority < scan.bestPriority ∧ priority > scan.lowerRtPriority then
    { scan with lowerRtIndex := some index, lowerRtPriority := priority }
  else if scan.bestIndex.isNone then
    { scan with bestIndex := some index }
  else
    scan

-- The loop of `fetch_from_queue`. Tasks that are not ready are removed on the way.
def scanQueue (sched : Scheduler τ) (cpu : Nat) : List τ → QueueScan τ → QueueScan τ
  | [], scan => scan
  | task :: tasks, scan =>
    if !sched.isReady task then
      scanQueue sched cpu tasks { scan with queuedPids := scan.queuedPids.erase (sched.pid task) }
    else
      let found := if sched.canRunOnCpu task cpu then sched.consider scan task else scan
      scanQueue sched cpu tasks { found with kept := scan.kept ++ [task] }

def chosenIndex (sched : Scheduler τ) (scan : QueueScan τ) : Option Nat :=
  if scan.bestPriority > 0 then
    if sched.rtRunsSinceNormal ≥ RT_LOWER_RUN_BUDGET ∧ scan.lowerRtIndex.isSome then
      scan.lowerRtIndex
    else
      scan.bestIndex
  else
    scan.bestIndex

def fetchFromQueue (sched : Scheduler τ) (kernel : Bool) (cpu : Nat) : Option τ × Scheduler τ :=
  let queue := sched.queue kernel
  let scan := sched.scanQueue cpu queue.tasks ⟨[], queue.queuedPids, none, 0, none, 0⟩
  let scanned : ReadyQueue τ := ⟨scan.kept, scan.queuedPids⟩
  match (sched.chosenIndex scan).bind (scanned.removeAt sched.pid) with
  | none => (none, sched.setQueue kernel scanned)
  | some (task, queue) =>
    let chosenPriority := sched.priority task
    let runs :=
      if scan.bestPriority > 0 ∧ chosenPriority > 0 ∧ chosenPriority = scan.bestPriority then
        (sched.rtRunsSinceNormal + 1) % (Usize.max + 1)
      else
        0
    (some task, { sched.setQueue kernel queue with rtRunsSinceNormal := runs })

-- The tasks that are not ready are removed up to the first one that can run.
def skipUnready (sched : Scheduler τ) (cpu : Nat) : List τ → List τ → Finset Nat → Bool × ReadyQueue τ
  | kept, [], pids => (false, ⟨kept, pids⟩)
  | kept, task :: tasks, pids =>
    if !sched.isReady task then
      skipUnready sched cpu kept tasks (pids.erase (sched.pid task))
    else if sched.canRunOnCpu task cpu then
      (true, ⟨kept ++ task :: tasks, pids⟩)
    else
      skipUnready sched cpu (kept ++ [task]) tasks pids

def hasRunnableTask (sched : Scheduler τ) (kernel : Bool) (cpu : Nat) : Bool × Scheduler τ :=
  let queue := sched.queue kernel
  let (found, queue) := sched.skipUnready cpu [] queue.tasks queue.queuedPids
  (found, sched.setQueue kernel queue)

def addTask (sched : Scheduler τ) (task : τ) (front : Bool) : Scheduler τ :=
  if !sched.isReady task then sched
  else
    let kernel := (sched.tasks task).isKernel
    let queue := sched.queue kernel
    sched.setQueue kernel (if front then queue.pushFront sched.pid task else queue.pushBack sched.pid task)

def removeTaskFromQueue (sched : Scheduler τ) (kernel : Bool) (pid : Nat) : Option (τ × Scheduler τ) :=
  let queue := sched.queue kernel
  (queue.tasks.findIdx? (sched.pid · = pid)).bind fun index =>
    (queue.removeAt sched.pid index).map fun (task, queue) => (task, sched.setQueue kernel queue)

def removeTask (sched : Scheduler τ) (pid : Nat) : Option τ × Scheduler τ :=
  match (sched.removeTaskFromQueue false pid).or (sched.removeTaskFromQueue true pid) with
  | some (task, sched) => (some task, sched)
  | none               => (none, sched)

-- The tasks that a processor may run, in the order of the queue.
def eligible (sched : Scheduler τ) (kernel : Bool) (cpu : Nat) : List τ :=
  (sched.queue kernel).tasks.filter fun task => sched.isReady task && sched.canRunOnCpu task cpu

-- The highest priority of some tasks, and the next lower one that is a real-time priority.
structure IsTop (sched : Scheduler τ) (tasks : List τ) (top : Nat) : Prop where
  reached : ∃ task ∈ tasks, sched.priority task = top
  highest : ∀ task ∈ tasks, sched.priority task ≤ top

structure IsLower (sched : Scheduler τ) (tasks : List τ) (top lower : Nat) : Prop where
  reached : ∃ task ∈ tasks, sched.priority task = lower
  realtime : 0 < lower
  below : lower < top
  highest : ∀ task ∈ tasks, sched.priority task < top → sched.priority task ≤ lower

-- The first of the tasks that has a priority.
def IsFirst (sched : Scheduler τ) (tasks : List τ) (priority : Nat) (task : τ) : Prop :=
  ∃ before after, tasks = before ++ task :: after ∧ sched.priority task = priority ∧
    ∀ other ∈ before, sched.priority other ≠ priority

-- The rule for the choice of a task: the first one of the highest priority, unless it is the turn of the next lower
-- one.
def Chooses (sched : Scheduler τ) (tasks : List τ) (task : τ) : Prop :=
  ∃ top, sched.IsTop tasks top ∧
    ((RT_LOWER_RUN_BUDGET ≤ sched.rtRunsSinceNormal ∧ ∃ lower, sched.IsLower tasks top lower ∧
        sched.IsFirst tasks lower task) ∨
      (¬(RT_LOWER_RUN_BUDGET ≤ sched.rtRunsSinceNormal ∧ ∃ lower, sched.IsLower tasks top lower) ∧
        sched.IsFirst tasks top task))

-- What a fetch returns, and which tasks it leaves in the queues: every task that is ready, in the same order.
structure FetchSpec (sched : Scheduler τ) (kernel : Bool) (cpu : Nat) : Prop where
  none : (sched.fetchFromQueue kernel cpu).1 = none → sched.eligible kernel cpu = [] ∧
    ((sched.fetchFromQueue kernel cpu).2.queue kernel).tasks = (sched.queue kernel).tasks.filter sched.isReady
  some : ∀ task, (sched.fetchFromQueue kernel cpu).1 = some task →
    sched.Chooses (sched.eligible kernel cpu) task ∧
    ∃ before after, (sched.queue kernel).tasks.filter sched.isReady = before ++ task :: after ∧
      ((sched.fetchFromQueue kernel cpu).2.queue kernel).tasks = before ++ after
  others : ∀ other, other ≠ kernel → (sched.fetchFromQueue kernel cpu).2.queue other = sched.queue other

-- A fetch bypasses the highest priority.
def Bypasses (sched : Scheduler τ) (kernel : Bool) (cpu : Nat) : Prop :=
  ∃ task, (sched.fetchFromQueue kernel cpu).1 = some task ∧
    ∃ top, sched.IsTop (sched.eligible kernel cpu) top ∧ sched.priority task < top

variable [DecidableEq τ]

def removeTaskInstances (sched : Scheduler τ) (task : τ) : Scheduler τ :=
  { sched with
    user := sched.user.removeTaskInstances sched.pid task
    kernel := sched.kernel.removeTaskInstances sched.pid task }

def retainTasks (sched : Scheduler τ) (keep : τ → Bool) : Scheduler τ :=
  { sched with user := sched.user.retain sched.pid keep, kernel := sched.kernel.retain sched.pid keep }

end Scheduler

-- The operations on the queues, and the changes that tasks undergo in between.
inductive SchedOp (τ : Type)
  | addTask (task : τ) (front : Bool)
  | setStatus (task : τ) (status : TaskStatus)
  | setSchedParams (task : τ) (policy priority : Nat)
  | setAffinityMask (task : τ) (mask : BitVec 64)
  | setOnlineCpus (mask : BitVec 64)
  | fetch (kernel : Bool) (cpu : Nat)
  | hasRunnableTask (kernel : Bool) (cpu : Nat)
  | removeTask (pid : Nat)
  | removeTaskInstances (task : τ)
  | retainTasks (keep : τ → Bool)

namespace Scheduler

open Function (update)

variable [DecidableEq τ]

def setTask (sched : Scheduler τ) (task : τ) (f : SchedTask → SchedTask) : Scheduler τ :=
  { sched with tasks := update sched.tasks task (f (sched.tasks task)) }

def step (sched : Scheduler τ) : SchedOp τ → Scheduler τ
  | .addTask task front => sched.addTask task front
  | .setStatus task status => sched.setTask task ({ · with status })
  | .setSchedParams task policy priority =>
    sched.setTask task ({ · with schedPolicy := policy, schedPriority := priority })
  | .setAffinityMask task mask => sched.setTask task ({ · with affinityMask := mask })
  | .setOnlineCpus mask => { sched with onlineCpuMask := mask }
  | .fetch kernel cpu => (sched.fetchFromQueue kernel cpu).2
  | .hasRunnableTask kernel cpu => (sched.hasRunnableTask kernel cpu).2
  | .removeTask pid => (sched.removeTask pid).2
  | .removeTaskInstances task => sched.removeTaskInstances task
  | .retainTasks keep => sched.retainTasks keep

def run (sched : Scheduler τ) (ops : List (SchedOp τ)) : Scheduler τ :=
  ops.foldl step sched

-- No fetch among the operations returns a task.
def FetchesNothing (sched : Scheduler τ) : List (SchedOp τ) → Prop
  | [] => True
  | op :: ops => (∀ kernel cpu, op = .fetch kernel cpu → (sched.fetchFromQueue kernel cpu).1 = none) ∧
      FetchesNothing (sched.step op) ops

end Scheduler

end WllOs
