import WllOs.Task.Manager

namespace WllOs

variable {τ : Type}

namespace ReadyQueue

variable {pid : τ → Nat} {queue : ReadyQueue τ} {task : τ}

theorem Mirrors.empty : (ReadyQueue.empty : ReadyQueue τ).Mirrors pid :=
  ⟨List.nodup_nil, rfl⟩

theorem Mirrors.pushBack (h : queue.Mirrors pid) (task : τ) : (queue.pushBack pid task).Mirrors pid := by
  simp only [ReadyQueue.pushBack]
  split
  case isTrue => exact h
  case isFalse hn =>
    rw [h.pids, List.mem_toFinset] at hn
    refine ⟨?_, ?_⟩
    case refine_1 =>
      rw [List.map_append, List.map_singleton]
      refine List.nodup_append.mpr ⟨h.nodup, List.nodup_singleton _, fun a ha b hb he => ?_⟩
      rw [List.mem_singleton.mp hb] at he
      exact hn (he ▸ ha)
    case refine_2 =>
      ext n
      simp [h.pids, or_comm]

theorem Mirrors.pushFront (h : queue.Mirrors pid) (task : τ) : (queue.pushFront pid task).Mirrors pid := by
  simp only [ReadyQueue.pushFront]
  split
  case isTrue => exact h
  case isFalse hn =>
    rw [h.pids, List.mem_toFinset] at hn
    exact ⟨by simpa using ⟨by simpa using hn, h.nodup⟩, by simp [h.pids]⟩

-- A task is taken out of the middle of a queue.
theorem Mirrors.erase {before after : List τ} {pids : Finset Nat}
    (h : (⟨before ++ task :: after, pids⟩ : ReadyQueue τ).Mirrors pid) :
    (⟨before ++ after, pids.erase (pid task)⟩ : ReadyQueue τ).Mirrors pid := by
  have hn := h.nodup
  simp only [List.map_append, List.map_cons] at hn
  have ⟨hm, hn'⟩ := List.nodup_cons.mp (List.nodup_middle.mp hn)
  refine ⟨by simpa using hn', ?_⟩
  ext n
  have hp : n ∈ pids ↔ n ∈ (before ++ task :: after).map pid := by
    have := h.pids
    simp only at this
    rw [this, List.mem_toFinset]
  simp only [Finset.mem_erase, hp, List.mem_toFinset, List.map_append, List.map_cons, List.mem_append,
    List.mem_cons] at hm ⊢
  constructor
  case mp =>
    rintro ⟨hne, hb | rfl | ha⟩
    case inl => exact .inl hb
    case inr.inl => exact absurd rfl hne
    case inr.inr => exact .inr ha
  case mpr =>
    intro h
    refine ⟨fun he => hm (he ▸ h), h.imp_right .inr⟩

-- What the removal at an index leaves of a queue.
theorem removeAt_eq {before after : List τ} {pids : Finset Nat} {index : Nat} (hi : before.length = index) :
    (⟨before ++ task :: after, pids⟩ : ReadyQueue τ).removeAt pid index =
      some (task, ⟨before ++ after, pids.erase (pid task)⟩) := by
  subst hi
  simp [ReadyQueue.removeAt, List.eraseIdx_append_of_length_le]

theorem exists_of_removeAt {index : Nat} {rest : ReadyQueue τ} (h : queue.removeAt pid index = some (task, rest)) :
    ∃ before after, queue.tasks = before ++ task :: after ∧ rest = ⟨before ++ after, queue.queuedPids.erase (pid task)⟩ := by
  simp only [ReadyQueue.removeAt, Option.map_eq_some_iff, Prod.mk.injEq] at h
  obtain ⟨_, hget, rfl, rfl⟩ := h
  have ⟨hlt, he⟩ := List.getElem?_eq_some_iff.mp hget
  refine ⟨queue.tasks.take index, queue.tasks.drop (index + 1), ?_, ?_⟩
  case refine_1 => rw [← he, List.cons_getElem_drop_succ, List.take_append_drop]
  case refine_2 => rw [List.eraseIdx_eq_take_drop_succ]

theorem Mirrors.removeAt {index : Nat} {rest : ReadyQueue τ} (h : queue.Mirrors pid)
    (hr : queue.removeAt pid index = some (task, rest)) : rest.Mirrors pid := by
  obtain ⟨before, after, ht, rfl⟩ := exists_of_removeAt hr
  obtain ⟨tasks, pids⟩ := queue
  subst ht
  exact h.erase

theorem Mirrors.removeTaskInstances [DecidableEq τ] (h : queue.Mirrors pid) (task : τ) :
    (queue.removeTaskInstances pid task).Mirrors pid := by
  have hfold (tasks : List τ) (kept : ReadyQueue τ)
      (h : (⟨kept.tasks ++ tasks, kept.queuedPids⟩ : ReadyQueue τ).Mirrors pid) :
      (tasks.foldl (fun kept queued =>
        if queued = task ∨ pid queued = pid task then
          { kept with queuedPids := kept.queuedPids.erase (pid queued) }
        else
          { kept with tasks := kept.tasks ++ [queued] }) kept).Mirrors pid := by
    induction tasks generalizing kept
    case nil => simpa using h
    case cons queued tasks hi =>
      rw [List.foldl_cons]
      split
      case isTrue => exact hi _ h.erase
      case isFalse => exact hi _ (by simpa using h)
  exact hfold queue.tasks ⟨[], queue.queuedPids⟩ h

theorem Mirrors.retain (queue : ReadyQueue τ) (keep : τ → Bool) : (queue.retain pid keep).Mirrors pid := by
  have hfold (tasks : List τ) (kept : ReadyQueue τ) (h : kept.Mirrors pid) :
      (tasks.foldl (fun kept task => if keep task then kept.pushBack pid task else kept) kept).Mirrors pid := by
    induction tasks generalizing kept
    case nil => exact h
    case cons task tasks hi =>
      rw [List.foldl_cons]
      split
      case isTrue => exact hi _ (h.pushBack task)
      case isFalse => exact hi _ h
  exact hfold queue.tasks _ .empty

end ReadyQueue

namespace Scheduler

open ReadyQueue

variable {sched : Scheduler τ} {kernel : Bool} {cpu : Nat} {task : τ}

@[simp]
theorem setQueue_tasks (queue : ReadyQueue τ) : (sched.setQueue kernel queue).tasks = sched.tasks := by
  cases kernel <;> rfl

@[simp]
theorem setQueue_queue (queue : ReadyQueue τ) : (sched.setQueue kernel queue).queue kernel = queue := by
  cases kernel <;> rfl

theorem setQueue_queue_of_ne {other : Bool} (queue : ReadyQueue τ) (h : other ≠ kernel) :
    (sched.setQueue kernel queue).queue other = sched.queue other := by
  cases kernel <;> cases other <;> first | rfl | exact absurd rfl h

@[simp]
theorem setQueue_runs (queue : ReadyQueue τ) :
    (sched.setQueue kernel queue).rtRunsSinceNormal = sched.rtRunsSinceNormal := by
  cases kernel <;> rfl

@[simp]
theorem setQueue_pid (queue : ReadyQueue τ) : (sched.setQueue kernel queue).pid = sched.pid := by
  funext task
  simp [Scheduler.pid]

-- The pids of all queues mirror them.
def Mirrored (sched : Scheduler τ) : Prop :=
  ∀ kernel, (sched.queue kernel).Mirrors sched.pid

theorem Mirrored.setQueue (h : sched.Mirrored) (kernel : Bool) {queue : ReadyQueue τ} (hq : queue.Mirrors sched.pid) :
    (sched.setQueue kernel queue).Mirrored := by
  intro other
  rw [setQueue_pid]
  by_cases ho : other = kernel
  case pos =>
    subst ho
    simpa using hq
  case neg =>
    rw [setQueue_queue_of_ne queue ho]
    exact h other

-- The scan of a queue.

theorem scanQueue_kept (tasks : List τ) (scan : QueueScan τ) :
    (sched.scanQueue cpu tasks scan).kept = scan.kept ++ tasks.filter sched.isReady := by
  induction tasks generalizing scan
  case nil => simp [scanQueue]
  case cons task tasks hi =>
    by_cases hr : sched.isReady task = true
    case pos => simp [scanQueue, hr, hi]
    case neg => simp [scanQueue, hr, hi]

theorem consider_queuedPids (scan : QueueScan τ) : (sched.consider scan task).queuedPids = scan.queuedPids := by
  simp only [consider]
  split_ifs <;> rfl

theorem scanQueue_mirrors (tasks : List τ) (scan : QueueScan τ)
    (h : (⟨scan.kept ++ tasks, scan.queuedPids⟩ : ReadyQueue τ).Mirrors sched.pid) :
    (⟨(sched.scanQueue cpu tasks scan).kept, (sched.scanQueue cpu tasks scan).queuedPids⟩ : ReadyQueue τ).Mirrors
      sched.pid := by
  induction tasks generalizing scan
  case nil => simpa [scanQueue] using h
  case cons task tasks hi =>
    simp only [scanQueue]
    split
    case isTrue => exact hi _ h.erase
    case isFalse =>
      refine hi _ ?_
      have hp : (if sched.canRunOnCpu task cpu then sched.consider scan task else scan).queuedPids =
          scan.queuedPids := by
        split
        case isTrue => exact consider_queuedPids scan
        case isFalse => rfl
      simpa [hp] using h

-- The index of the first of some tasks that can run and has a priority.
def FirstAt (sched : Scheduler τ) (cpu : Nat) (tasks : List τ) (priority index : Nat) : Prop :=
  ∃ before task after, tasks = before ++ task :: after ∧ before.length = index ∧ sched.canRunOnCpu task cpu ∧
    sched.priority task = priority ∧ ∀ other ∈ before, sched.canRunOnCpu other cpu → sched.priority other ≠ priority

theorem FirstAt.append {tasks : List τ} {priority index : Nat} (h : sched.FirstAt cpu tasks priority index)
    (others : List τ) : sched.FirstAt cpu (tasks ++ others) priority index := by
  obtain ⟨before, task, after, rfl, hi, hc, hp, hb⟩ := h
  exact ⟨before, task, after ++ others, by simp, hi, hc, hp, hb⟩

theorem FirstAt.last {tasks : List τ} (hc : sched.canRunOnCpu task cpu)
    (h : ∀ other ∈ tasks, sched.canRunOnCpu other cpu → sched.priority other ≠ sched.priority task) :
    sched.FirstAt cpu (tasks ++ [task]) (sched.priority task) tasks.length :=
  ⟨tasks, task, [], rfl, rfl, hc, rfl, h⟩

-- What the scan has found: the first task of the highest priority, and the first one of the next lower priority that
-- is a real-time priority.
structure Found (sched : Scheduler τ) (cpu : Nat) (scan : QueueScan τ) : Prop where
  missing   : scan.bestIndex = none → scan.bestPriority = 0 ∧ ∀ task ∈ scan.kept, ¬sched.canRunOnCpu task cpu
  best      : ∀ index, scan.bestIndex = some index → sched.FirstAt cpu scan.kept scan.bestPriority index
  highest   : ∀ task ∈ scan.kept, sched.canRunOnCpu task cpu → sched.priority task ≤ scan.bestPriority
  lowerNone : scan.lowerRtIndex = none → scan.lowerRtPriority = 0
  lower     : ∀ index, scan.lowerRtIndex = some index →
    sched.FirstAt cpu scan.kept scan.lowerRtPriority index ∧ 0 < scan.lowerRtPriority ∧ scan.lowerRtPriority < scan.bestPriority
  between   : ∀ task ∈ scan.kept, sched.canRunOnCpu task cpu → sched.priority task < scan.bestPriority →
    sched.priority task ≤ scan.lowerRtPriority

theorem Found.start (pids : Finset Nat) : sched.Found cpu ⟨[], pids, none, 0, none, 0⟩ := by
  constructor <;> simp

-- A task that cannot run on the processor is passed over.
theorem Found.skip {scan : QueueScan τ} (h : sched.Found cpu scan) (hc : ¬sched.canRunOnCpu task cpu) :
    sched.Found cpu { scan with kept := scan.kept ++ [task] } where
  missing hb := ⟨(h.missing hb).1, fun other ho => by
    obtain ho | ho := List.mem_append.mp ho
    case inl => exact (h.missing hb).2 other ho
    case inr => exact List.mem_singleton.mp ho ▸ hc⟩
  best index hb := (h.best index hb).append [task]
  highest other ho hr := by
    obtain ho | ho := List.mem_append.mp ho
    case inl => exact h.highest other ho hr
    case inr => exact absurd (List.mem_singleton.mp ho ▸ hr) hc
  lowerNone := h.lowerNone
  lower index hl := ⟨(h.lower index hl).1.append [task], (h.lower index hl).2⟩
  between other ho hr hp := by
    obtain ho | ho := List.mem_append.mp ho
    case inl => exact h.between other ho hr hp
    case inr => exact absurd (List.mem_singleton.mp ho ▸ hr) hc

theorem Found.consider {scan : QueueScan τ} (h : sched.Found cpu scan) (hc : sched.canRunOnCpu task cpu) :
    sched.Found cpu { sched.consider scan task with kept := scan.kept ++ [task] } := by
  have hmem {P : τ → Prop} (hk : ∀ other ∈ scan.kept, sched.canRunOnCpu other cpu → P other) (ht : P task) :
      ∀ other ∈ scan.kept ++ [task], sched.canRunOnCpu other cpu → P other := by
    intro other ho hr
    obtain ho | ho := List.mem_append.mp ho
    case inl => exact hk other ho hr
    case inr => exact List.mem_singleton.mp ho ▸ ht
  have hzero : scan.lowerRtPriority = 0 ∨ scan.lowerRtPriority < scan.bestPriority := by
    cases hl : scan.lowerRtIndex
    case none => exact .inl (h.lowerNone hl)
    case some index => exact .inr (h.lower index hl).2.2
  simp only [Scheduler.consider]
  split_ifs with hgt hlower hnext hnone
  case pos =>
    -- The task is better than the best one so far, which becomes the next lower one.
    have hfirst := FirstAt.last hc fun other ho hr => by have := h.highest other ho hr; omega
    obtain ⟨index, hb⟩ : ∃ index, scan.bestIndex = some index := by
      cases hb : scan.bestIndex
      case none => have := (h.missing hb).1; omega
      case some index => exact ⟨index, rfl⟩
    exact {
      missing := by simp
      best := by simpa using hfirst
      highest := hmem (fun other ho hr => by have := h.highest other ho hr; simp only; omega) le_rfl
      lowerNone := by simp [hb]
      lower := fun index hl => ⟨(h.best index hl).append [task], hlower.1, hgt⟩
      between := hmem (fun other ho hr _ => h.highest other ho hr) fun hlt => absurd hlt (lt_irrefl _) }
  case neg =>
    have hfirst := FirstAt.last hc fun other ho hr => by have := h.highest other ho hr; omega
    have hbest : scan.bestPriority = 0 := by omega
    exact {
      missing := by simp
      best := by simpa using hfirst
      highest := hmem (fun other ho hr => by have := h.highest other ho hr; simp only; omega) le_rfl
      lowerNone := h.lowerNone
      lower := fun index hl => by have := (h.lower index hl).2; omega
      between := hmem (fun other ho hr _ => by have := h.highest other ho hr; simp only; omega)
        fun hlt => absurd hlt (lt_irrefl _) }
  case pos =>
    exact {
      missing := fun hb => by have := (h.missing hb).1; omega
      best := fun index hb => (h.best index hb).append [task]
      highest := hmem h.highest (by simp only; omega)
      lowerNone := by simp
      lower := fun index hl => by
        cases hl
        refine ⟨FirstAt.last hc fun other ho hr he => ?_, hnext.1, hnext.2.1⟩
        have := h.between other ho hr (by omega)
        omega
      between := hmem (fun other ho hr hp => by have := h.between other ho hr hp; simp only; omega) fun _ => le_rfl }
  case pos =>
    have hb := Option.isNone_iff_eq_none.mp hnone
    have ⟨hbest, hno⟩ := h.missing hb
    have hp : sched.priority task = scan.bestPriority := by omega
    exact {
      missing := by simp
      best := fun index hi => by
        cases hi
        exact hp ▸ FirstAt.last hc fun other ho hr => absurd hr (hno other ho)
      highest := hmem h.highest (by simp only; omega)
      lowerNone := h.lowerNone
      lower := fun index hl => ⟨(h.lower index hl).1.append [task], (h.lower index hl).2⟩
      between := hmem h.between (by simp only; omega) }
  case neg =>
    exact {
      missing := fun hb => absurd (Option.isNone_iff_eq_none.mpr hb) hnone
      best := fun index hb => (h.best index hb).append [task]
      highest := hmem h.highest (by simp only; omega)
      lowerNone := h.lowerNone
      lower := fun index hl => ⟨(h.lower index hl).1.append [task], (h.lower index hl).2⟩
      between := hmem h.between (by simp only; omega) }

theorem Found.scanQueue {scan : QueueScan τ} (h : sched.Found cpu scan) (tasks : List τ) :
    sched.Found cpu (sched.scanQueue cpu tasks scan) := by
  induction tasks generalizing scan
  case nil => exact h
  case cons task tasks hi =>
    simp only [Scheduler.scanQueue]
    split
    case isTrue => exact hi ⟨h.missing, h.best, h.highest, h.lowerNone, h.lower, h.between⟩
    case isFalse =>
      refine hi ?_
      split
      case isTrue hc => exact h.consider hc
      case isFalse hc => exact h.skip hc

-- The scan of a fetch.
def fetchScan (sched : Scheduler τ) (kernel : Bool) (cpu : Nat) : QueueScan τ :=
  sched.scanQueue cpu (sched.queue kernel).tasks ⟨[], (sched.queue kernel).queuedPids, none, 0, none, 0⟩

theorem fetchScan_kept : (sched.fetchScan kernel cpu).kept = (sched.queue kernel).tasks.filter sched.isReady := by
  simp [fetchScan, scanQueue_kept]

theorem fetchScan_found : sched.Found cpu (sched.fetchScan kernel cpu) :=
  (Found.start _).scanQueue _

theorem eligible_eq : sched.eligible kernel cpu =
    (sched.fetchScan kernel cpu).kept.filter fun task => sched.canRunOnCpu task cpu := by
  rw [fetchScan_kept, eligible, List.filter_filter]
  simp only [Bool.and_comm]

theorem mem_eligible : task ∈ sched.eligible kernel cpu ↔
    task ∈ (sched.fetchScan kernel cpu).kept ∧ sched.canRunOnCpu task cpu := by
  rw [eligible_eq, List.mem_filter]

theorem FirstAt.isFirst {priority index : Nat}
    (h : sched.FirstAt cpu (sched.fetchScan kernel cpu).kept priority index) :
    ∃ before task after, (sched.fetchScan kernel cpu).kept = before ++ task :: after ∧ before.length = index ∧
      sched.IsFirst (sched.eligible kernel cpu) priority task := by
  obtain ⟨before, task, after, hk, hi, hc, hp, hb⟩ := h
  have he : sched.eligible kernel cpu = before.filter (sched.canRunOnCpu · cpu) ++ task ::
      after.filter (sched.canRunOnCpu · cpu) := by
    rw [eligible_eq, hk, List.filter_append, List.filter_cons, if_pos hc]
  refine ⟨before, task, after, hk, hi, _, _, he, hp, fun other ho => ?_⟩
  have ⟨ho, hr⟩ := List.mem_filter.mp ho
  exact hb other ho hr

theorem FirstAt.reached {priority index : Nat} (h : sched.FirstAt cpu (sched.fetchScan kernel cpu).kept priority index) :
    ∃ task ∈ sched.eligible kernel cpu, sched.priority task = priority := by
  obtain ⟨before, task, after, hk, -, hc, hp, -⟩ := h
  exact ⟨task, mem_eligible.mpr ⟨by simp [hk], hc⟩, hp⟩

theorem fetchScan_top {index : Nat} (hb : (sched.fetchScan kernel cpu).bestIndex = some index) :
    sched.IsTop (sched.eligible kernel cpu) (sched.fetchScan kernel cpu).bestPriority where
  reached := (fetchScan_found.best index hb).reached
  highest task ht := have ⟨hk, hc⟩ := mem_eligible.mp ht
    fetchScan_found.highest task hk hc

theorem fetchScan_lower {index : Nat} (hl : (sched.fetchScan kernel cpu).lowerRtIndex = some index) :
    sched.IsLower (sched.eligible kernel cpu) (sched.fetchScan kernel cpu).bestPriority
      (sched.fetchScan kernel cpu).lowerRtPriority where
  reached := (fetchScan_found.lower index hl).1.reached
  realtime := (fetchScan_found.lower index hl).2.1
  below := (fetchScan_found.lower index hl).2.2
  highest task ht hp := have ⟨hk, hc⟩ := mem_eligible.mp ht
    fetchScan_found.between task hk hc hp

-- There is no lower real-time priority if the scan has found none.
theorem fetchScan_lower_none (hl : (sched.fetchScan kernel cpu).lowerRtIndex = none) {lower : Nat} :
    ¬sched.IsLower (sched.eligible kernel cpu) (sched.fetchScan kernel cpu).bestPriority lower := by
  intro h
  obtain ⟨task, ht, rfl⟩ := h.reached
  have ⟨hk, hc⟩ := mem_eligible.mp ht
  have := fetchScan_found.between task hk hc h.below
  have := fetchScan_found.lowerNone hl
  have := h.realtime
  omega

theorem IsTop.unique {tasks : List τ} {top top' : Nat} (h : sched.IsTop tasks top) (h' : sched.IsTop tasks top') :
    top = top' := by
  obtain ⟨task, ht, rfl⟩ := h.reached
  obtain ⟨task', ht', rfl⟩ := h'.reached
  exact Nat.le_antisymm (h'.highest task ht) (h.highest task' ht')

-- A fetch either finds no task that can run, or takes out one that the rule for the choice allows.
inductive FetchCases (sched : Scheduler τ) (kernel : Bool) (cpu : Nat) : Prop
  | none : sched.eligible kernel cpu = [] →
      sched.fetchFromQueue kernel cpu =
        (none, sched.setQueue kernel ⟨(sched.fetchScan kernel cpu).kept, (sched.fetchScan kernel cpu).queuedPids⟩) →
      FetchCases sched kernel cpu
  | some (before : List τ) (task : τ) (after : List τ) (runs priority : Nat) :
      (sched.fetchScan kernel cpu).kept = before ++ task :: after →
      sched.IsTop (sched.eligible kernel cpu) (sched.fetchScan kernel cpu).bestPriority →
      sched.IsFirst (sched.eligible kernel cpu) priority task →
      (RT_LOWER_RUN_BUDGET ≤ sched.rtRunsSinceNormal ∧
          sched.IsLower (sched.eligible kernel cpu) (sched.fetchScan kernel cpu).bestPriority priority ∨
        ¬(RT_LOWER_RUN_BUDGET ≤ sched.rtRunsSinceNormal ∧ ∃ lower,
            sched.IsLower (sched.eligible kernel cpu) (sched.fetchScan kernel cpu).bestPriority lower) ∧
          priority = (sched.fetchScan kernel cpu).bestPriority) →
      (priority ≠ (sched.fetchScan kernel cpu).bestPriority → runs = 0) →
      sched.fetchFromQueue kernel cpu = (Option.some task, { sched.setQueue kernel
          ⟨before ++ after, (sched.fetchScan kernel cpu).queuedPids.erase (sched.pid task)⟩ with
        rtRunsSinceNormal := runs }) →
      FetchCases sched kernel cpu

theorem fetch_some {index priority : Nat} (hc : sched.chosenIndex (sched.fetchScan kernel cpu) = some index)
    (hf : sched.FirstAt cpu (sched.fetchScan kernel cpu).kept priority index)
    (ht : sched.IsTop (sched.eligible kernel cpu) (sched.fetchScan kernel cpu).bestPriority)
    (hr : RT_LOWER_RUN_BUDGET ≤ sched.rtRunsSinceNormal ∧
          sched.IsLower (sched.eligible kernel cpu) (sched.fetchScan kernel cpu).bestPriority priority ∨
        ¬(RT_LOWER_RUN_BUDGET ≤ sched.rtRunsSinceNormal ∧ ∃ lower,
            sched.IsLower (sched.eligible kernel cpu) (sched.fetchScan kernel cpu).bestPriority lower) ∧
          priority = (sched.fetchScan kernel cpu).bestPriority) : FetchCases sched kernel cpu := by
  obtain ⟨before, task, after, hk, hi, hfirst⟩ := hf.isFirst
  have hp : sched.priority task = priority := by
    obtain ⟨_, _, -, hp, -⟩ := hfirst
    exact hp
  refine .some before task after
    (if (sched.fetchScan kernel cpu).bestPriority > 0 ∧ sched.priority task > 0 ∧
        sched.priority task = (sched.fetchScan kernel cpu).bestPriority then
      (sched.rtRunsSinceNormal + 1) % (Usize.max + 1) else 0)
    priority hk ht hfirst hr (fun hne => ?_) ?_
  case refine_2 =>
    have he : (sched.chosenIndex (sched.fetchScan kernel cpu)).bind (ReadyQueue.removeAt sched.pid
        ⟨(sched.fetchScan kernel cpu).kept, (sched.fetchScan kernel cpu).queuedPids⟩) =
        some (task, ⟨before ++ after, (sched.fetchScan kernel cpu).queuedPids.erase (sched.pid task)⟩) := by
      rw [hc, Option.bind_some, hk, removeAt_eq hi]
    simp only [fetchScan] at he
    simp only [fetchFromQueue, he]
    rfl
  case refine_1 =>
    subst hp
    exact if_neg fun h => hne h.2.2

theorem fetch_cases (sched : Scheduler τ) (kernel : Bool) (cpu : Nat) : FetchCases sched kernel cpu := by
  cases hb : (sched.fetchScan kernel cpu).bestIndex
  case none =>
    have ⟨hp, hn⟩ := fetchScan_found.missing hb
    refine .none (List.eq_nil_iff_forall_not_mem.mpr fun task ht => ?_) ?_
    case refine_1 => exact hn task (mem_eligible.mp ht).1 (mem_eligible.mp ht).2
    case refine_2 =>
      have hc : sched.chosenIndex (sched.fetchScan kernel cpu) = none := by simp [chosenIndex, hp, hb]
      simp only [fetchScan] at hc
      simp only [fetchFromQueue, hc]
      rfl
  case some best =>
    have ht := fetchScan_top hb
    by_cases hbudget : RT_LOWER_RUN_BUDGET ≤ sched.rtRunsSinceNormal ∧
        (sched.fetchScan kernel cpu).lowerRtIndex.isSome
    case pos =>
      obtain ⟨hbudget, hsome⟩ := hbudget
      obtain ⟨lower, hl⟩ := Option.isSome_iff_exists.mp hsome
      have ⟨hf, hpos, hlt⟩ := fetchScan_found.lower lower hl
      refine fetch_some ?_ hf ht (.inl ⟨hbudget, fetchScan_lower hl⟩)
      simp [chosenIndex, hbudget, hl, Nat.lt_trans hpos hlt]
    case neg =>
      refine fetch_some ?_ (fetchScan_found.best best hb) ht (.inr ⟨fun ⟨hr, lower, hlower⟩ => ?_, rfl⟩)
      case refine_1 =>
        simp only [chosenIndex, ge_iff_le, hbudget, if_false, hb, ite_self]
      case refine_2 =>
        cases hl : (sched.fetchScan kernel cpu).lowerRtIndex
        case none => exact fetchScan_lower_none hl hlower
        case some => exact hbudget ⟨hr, by simp [hl]⟩

theorem fetchSpec : sched.FetchSpec kernel cpu := by
  cases fetch_cases sched kernel cpu
  case none he hf =>
    rw [fetchScan_kept] at hf
    refine ⟨fun _ => ⟨he, by simp [hf]⟩, fun task ht => ?_, fun other ho => ?_⟩
    case refine_1 =>
      rw [hf] at ht
      cases ht
    case refine_2 =>
      rw [hf]
      exact setQueue_queue_of_ne _ ho
  case some before task after runs priority hk ht hfirst hr _ hf =>
    rw [fetchScan_kept] at hk
    refine ⟨fun hn => ?_, fun other ho => ?_, fun other ho => ?_⟩
    case refine_1 =>
      rw [hf] at hn
      cases hn
    case refine_2 =>
      rw [hf] at ho ⊢
      cases ho
      refine ⟨⟨_, ht, ?_⟩, before, after, hk, ?_⟩
      case refine_1 =>
        obtain ⟨hbudget, hlower⟩ | ⟨hbudget, rfl⟩ := hr
        case inl => exact .inl ⟨hbudget, priority, hlower, hfirst⟩
        case inr => exact .inr ⟨hbudget, hfirst⟩
      case refine_2 => cases kernel <;> rfl
    case refine_3 =>
      rw [hf]
      exact setQueue_queue_of_ne _ ho

-- The highest priority is not bypassed while the counter is zero, which it is after it has been bypassed.

theorem not_bypasses (h : sched.rtRunsSinceNormal = 0) : ¬sched.Bypasses kernel cpu := by
  rintro ⟨task, hs, top, htop, hlt⟩
  cases fetch_cases sched kernel cpu
  case none _ hf =>
    rw [hf] at hs
    cases hs
  case some before task' after runs priority _ ht hfirst hr _ hf =>
    rw [hf] at hs
    cases hs
    obtain ⟨hbudget, -⟩ | ⟨-, rfl⟩ := hr
    case inl => simp [h, RT_LOWER_RUN_BUDGET] at hbudget
    case inr =>
      obtain ⟨_, _, -, hp, -⟩ := hfirst
      rw [hp, htop.unique ht] at hlt
      exact absurd hlt (lt_irrefl _)

theorem Bypasses.runs (h : sched.Bypasses kernel cpu) :
    (sched.fetchFromQueue kernel cpu).2.rtRunsSinceNormal = 0 := by
  obtain ⟨task, hs, top, htop, hlt⟩ := h
  cases fetch_cases sched kernel cpu
  case none _ hf =>
    rw [hf] at hs
    cases hs
  case some before task' after runs priority _ ht hfirst _ hruns hf =>
    rw [hf] at hs ⊢
    cases hs
    obtain ⟨_, _, -, hp, -⟩ := hfirst
    refine hruns fun he => ?_
    rw [hp, he, htop.unique ht] at hlt
    exact absurd hlt (lt_irrefl _)

-- The pids of the queues mirror them in every state that is reached.

theorem fetch_mirrored (h : sched.Mirrored) : (sched.fetchFromQueue kernel cpu).2.Mirrored := by
  have hscan : (⟨(sched.fetchScan kernel cpu).kept, (sched.fetchScan kernel cpu).queuedPids⟩ : ReadyQueue τ).Mirrors
      sched.pid := scanQueue_mirrors _ _ (h kernel)
  cases fetch_cases sched kernel cpu
  case none _ hf =>
    rw [hf]
    exact h.setQueue kernel hscan
  case some before task after runs _ hk _ _ _ _ hf =>
    rw [hk] at hscan
    rw [hf]
    have herased := h.setQueue kernel hscan.erase
    exact herased

theorem skipUnready_mirrors (tasks kept : List τ) (pids : Finset Nat)
    (h : (⟨kept ++ tasks, pids⟩ : ReadyQueue τ).Mirrors sched.pid) :
    (sched.skipUnready cpu kept tasks pids).2.Mirrors sched.pid := by
  induction tasks generalizing kept pids
  case nil => simpa [skipUnready] using h
  case cons task tasks hi =>
    simp only [skipUnready]
    split_ifs
    case pos => exact hi _ _ h.erase
    case pos => exact h
    case neg => exact hi _ _ (by simpa using h)

theorem removeTaskFromQueue_mirrored {sched' : Scheduler τ} {pid : Nat} (h : sched.Mirrored)
    (hr : sched.removeTaskFromQueue kernel pid = some (task, sched')) : sched'.Mirrored := by
  simp only [removeTaskFromQueue, Option.bind_eq_some_iff, Option.map_eq_some_iff, Prod.mk.injEq] at hr
  obtain ⟨index, -, ⟨_, queue⟩, hq, -, rfl⟩ := hr
  exact h.setQueue kernel ((h kernel).removeAt hq)

variable [DecidableEq τ]

theorem step_mirrored (h : sched.Mirrored) (op : SchedOp τ) : (sched.step op).Mirrored := by
  have htask (task : τ) (f : SchedTask → SchedTask) (hf : ∀ task, (f task).pid = task.pid) :
      (sched.setTask task f).Mirrored := by
    intro kernel
    have hp : (sched.setTask task f).pid = sched.pid := by
      funext other
      by_cases ho : other = task
      case pos => simp [Scheduler.pid, setTask, ho, hf]
      case neg => simp [Scheduler.pid, setTask, ho]
    rw [hp]
    exact h kernel
  cases op
  case addTask task front =>
    simp only [step, addTask]
    split
    case isTrue => exact h
    case isFalse =>
      refine h.setQueue _ ?_
      split
      case isTrue => exact (h _).pushFront task
      case isFalse => exact (h _).pushBack task
  case setStatus task status => exact htask task ({ · with status }) fun _ => rfl
  case setSchedParams task policy priority =>
    exact htask task ({ · with schedPolicy := policy, schedPriority := priority }) fun _ => rfl
  case setAffinityMask task mask => exact htask task ({ · with affinityMask := mask }) fun _ => rfl
  case setOnlineCpus => exact h
  case fetch kernel cpu => exact fetch_mirrored h
  case hasRunnableTask kernel cpu => exact h.setQueue kernel (skipUnready_mirrors _ [] _ (h kernel))
  case removeTask pid =>
    simp only [step, removeTask]
    split
    case h_1 task sched' hr =>
      obtain hr | ⟨-, hr⟩ := Option.or_eq_some_iff.mp hr
      case inl => exact removeTaskFromQueue_mirrored h hr
      case inr => exact removeTaskFromQueue_mirrored h hr
    case h_2 => exact h
  case removeTaskInstances task =>
    intro kernel
    cases kernel
    case false => exact (h false).removeTaskInstances task
    case true => exact (h true).removeTaskInstances task
  case retainTasks keep =>
    intro kernel
    cases kernel <;> exact .retain _ keep

theorem run_mirrored (h : sched.Mirrored) (ops : List (SchedOp τ)) : (sched.run ops).Mirrored := by
  induction ops generalizing sched
  case nil => exact h
  case cons op ops hi => exact hi (step_mirrored h op)

-- Only a fetch that returns a task changes the counter.
theorem step_runs {op : SchedOp τ}
    (h : ∀ kernel cpu, op = .fetch kernel cpu → (sched.fetchFromQueue kernel cpu).1 = none) :
    (sched.step op).rtRunsSinceNormal = sched.rtRunsSinceNormal := by
  cases op
  case addTask task front =>
    simp only [step, addTask]
    split
    case isTrue => rfl
    case isFalse => exact setQueue_runs _
  case fetch kernel cpu =>
    have hn := h kernel cpu rfl
    cases fetch_cases sched kernel cpu
    case none _ hf =>
      rw [step, hf]
      exact setQueue_runs _
    case some hf =>
      rw [hf] at hn
      cases hn
  case hasRunnableTask kernel cpu => exact setQueue_runs _
  case removeTask pid =>
    have hone {kernel : Bool} {task : τ} {sched' : Scheduler τ}
        (hr : sched.removeTaskFromQueue kernel pid = some (task, sched')) :
        sched'.rtRunsSinceNormal = sched.rtRunsSinceNormal := by
      simp only [removeTaskFromQueue, Option.bind_eq_some_iff, Option.map_eq_some_iff, Prod.mk.injEq] at hr
      obtain ⟨_, -, ⟨_, queue⟩, -, -, rfl⟩ := hr
      exact setQueue_runs queue
    simp only [step, removeTask]
    split
    case h_1 task sched' hr =>
      obtain hr | ⟨-, hr⟩ := Option.or_eq_some_iff.mp hr
      case inl => exact hone hr
      case inr => exact hone hr
    case h_2 => rfl
  all_goals rfl

theorem FetchesNothing.runs {ops : List (SchedOp τ)} (h : sched.FetchesNothing ops) :
    (sched.run ops).rtRunsSinceNormal = sched.rtRunsSinceNormal := by
  induction ops generalizing sched
  case nil => rfl
  case cons op ops hi => exact (hi h.2).trans (step_runs h.1)

-- In every state that is reached from empty queues, the pids mirror the queues, a fetch returns what the rule for the
-- choice says and drops no task that is ready, and no two fetches in a row bypass the highest priority.
theorem reachable_queues (tasks : τ → SchedTask) (runs : Nat) (cpus : BitVec 64) (ops : List (SchedOp τ)) :
    let sched := (⟨tasks, .empty, .empty, runs, cpus⟩ : Scheduler τ).run ops
    sched.Mirrored ∧ ∀ kernel cpu, sched.FetchSpec kernel cpu ∧
      (sched.Bypasses kernel cpu → ∀ others, (sched.step (.fetch kernel cpu)).FetchesNothing others →
        ∀ kernel' cpu', ¬((sched.step (.fetch kernel cpu)).run others).Bypasses kernel' cpu') := by
  refine ⟨run_mirrored (fun kernel => ?_) ops, fun kernel cpu => ⟨fetchSpec, fun hb others hn kernel' cpu' => ?_⟩⟩
  case refine_1 => cases kernel <;> exact .empty
  case refine_2 => exact not_bypasses (hn.runs.trans hb.runs)

end Scheduler

end WllOs
