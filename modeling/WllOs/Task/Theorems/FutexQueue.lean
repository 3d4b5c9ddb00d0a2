import WllOs.Library.Lists
import WllOs.Task.FutexQueue

namespace WllOs

open Function (update)
open WaitInstr Prog

variable {τ : Type} [DecidableEq τ] {thread : τ} {state state' : WaitState τ} {entry : WaitEntry τ}
variable {entries : List (WaitEntry τ)} {filter : WakeFilter} {n : Nat}

-- The entries that a requeue takes out and moves.

omit [DecidableEq τ] in
theorem takeEntries_taken : (takeEntries filter entries n).1 = (entries.filter (filter.accepts ·.key)).take n := by
  induction entries generalizing n
  case nil => simp [takeEntries]
  case cons entry entries hi =>
    cases n <;> by_cases ha : filter.accepts entry.key <;> simp [takeEntries, ha, hi]

theorem takeEntries_rest (hd : entries.Nodup) : (takeEntries filter entries n).2 =
    entries.filter (· ∉ (entries.filter (filter.accepts ·.key)).take n) := by
  induction entries generalizing n
  case nil => simp [takeEntries]
  case cons entry entries hi =>
    obtain ⟨hne, hd⟩ := List.nodup_cons.mp hd
    have hfresh : ∀ other ∈ entries, other ≠ entry := fun other ho he => hne (he ▸ ho)
    have htake {m : Nat} : entry ∉ (entries.filter (filter.accepts ·.key)).take m :=
      fun h => hne (List.mem_filter.mp (List.mem_of_mem_take h)).1
    cases n
    case zero => cases ha : filter.accepts entry.key <;> simp [takeEntries, ha, hi hd]
    case succ n =>
      cases ha : filter.accepts entry.key
      case false =>
        simp only [takeEntries, ha, hi hd, Bool.false_eq_true, and_false, if_false, not_false_eq_true,
          List.filter_cons_of_neg]
        rw [List.filter_cons_of_pos (by simpa using htake)]
      case true =>
        simp only [takeEntries, ha, hi hd, ne_eq, Nat.add_eq_zero_iff, one_ne_zero, and_false, not_false_eq_true,
          and_self, if_true, List.filter_cons_of_pos, List.take_succ_cons, Nat.add_sub_cancel]
        rw [List.filter_cons_of_neg (by simp)]
        exact List.filter_congr fun other ho => by simp [hfresh other ho]

omit [DecidableEq τ] in
theorem requeueEntries_count {uaddr key : Nat} : (requeueEntries filter uaddr key entries n).2 =
    ((entries.filter (filter.accepts ·.key)).take n).length := by
  induction entries generalizing n
  case nil => simp [requeueEntries]
  case cons entry entries hi =>
    cases n <;> by_cases ha : filter.accepts entry.key <;> simp [requeueEntries, ha, hi]

theorem requeueEntries_entries {uaddr key : Nat} (hd : entries.Nodup) : (requeueEntries filter uaddr key entries n).1 =
    entries.map fun entry => if entry ∈ (entries.filter (filter.accepts ·.key)).take n then
      { entry with key := EntryKey.requeued uaddr key entry.key } else entry := by
  induction entries generalizing n
  case nil => simp [requeueEntries]
  case cons entry entries hi =>
    obtain ⟨hne, hd⟩ := List.nodup_cons.mp hd
    have hfresh : ∀ other ∈ entries, other ≠ entry := fun other ho he => hne (he ▸ ho)
    have htake {m : Nat} : entry ∉ (entries.filter (filter.accepts ·.key)).take m :=
      fun h => hne (List.mem_filter.mp (List.mem_of_mem_take h)).1
    cases n
    case zero => cases ha : filter.accepts entry.key <;> simp [requeueEntries, ha, hi hd]
    case succ n =>
      cases ha : filter.accepts entry.key
      case false => simp [requeueEntries, ha, hi hd, htake]
      case true =>
        simp only [requeueEntries, ha, hi hd, ne_eq, Nat.add_eq_zero_iff, one_ne_zero, and_false, not_false_eq_true,
          and_self, if_true, List.filter_cons_of_pos, List.take_succ_cons, Nat.add_sub_cancel, List.map_cons]
        refine congrArg₂ List.cons (by simp) (List.map_congr_left fun other ho => ?_)
        simp [hfresh other ho]

-- What the steps of a wake do to the tasks, the queues and the memory.

@[simp]
theorem setTask_tasks (task : τ) (f : Waiter τ → Waiter τ) :
    (state.setTask task f).tasks = update state.tasks task (f (state.tasks task)) := rfl

@[simp]
theorem setTask_queues (task : τ) (f : Waiter τ → Waiter τ) : (state.setTask task f).queues = state.queues := rfl

@[simp]
theorem setTask_memory (task : τ) (f : Waiter τ → Waiter τ) : (state.setTask task f).memory = state.memory := rfl

omit [DecidableEq τ] in
@[simp]
theorem record_tasks (event : WaitEvent τ) : (state.record event).tasks = state.tasks := rfl

omit [DecidableEq τ] in
@[simp]
theorem record_queues (event : WaitEvent τ) : (state.record event).queues = state.queues := rfl

omit [DecidableEq τ] in
@[simp]
theorem record_memory (event : WaitEvent τ) : (state.record event).memory = state.memory := rfl

@[simp]
theorem storeReasonExec_tasks (task : τ) (reason : Option BlockReason) :
    (storeReasonExec thread task reason state).tasks =
      update state.tasks task { state.tasks task with blockReason := reason } := by
  rw [storeReasonExec]
  split <;> rfl

@[simp]
theorem storeReasonExec_queues (task : τ) (reason : Option BlockReason) :
    (storeReasonExec thread task reason state).queues = state.queues := by
  rw [storeReasonExec]
  split <;> rfl

@[simp]
theorem storeReasonExec_memory (task : τ) (reason : Option BlockReason) :
    (storeReasonExec thread task reason state).memory = state.memory := by
  rw [storeReasonExec]
  split <;> rfl

-- What a wake changes: at most the task that it is for.
structure WokeEntry (state state' : WaitState τ) (entry : WaitEntry τ) : Prop where
  tasks : state'.tasks = if state.live entry then wakeEntries state.tasks [entry] else state.tasks
  queues : state'.queues = state.queues
  memory : state'.memory = state.memory

theorem makeReady_runs (thread : τ) (state : WaitState τ) (task : τ) :
    ∃ state', Prog.Runs machine thread (makeReady task .woken) state () state' ∧
      state'.tasks = update state.tasks task { state.tasks task with
        status := .ready, blockReason := none, waitOutcome := some .woken, statusLock := none } ∧
      state'.queues = state.queues ∧ state'.memory = state.memory := by
  refine ⟨_, .bind (.instr rfl) (.bind (.instr rfl) (.bind (.instr rfl) (.instr rfl))), ?_⟩
  simp

theorem compareToken_runs (thread : τ) (state : WaitState τ) (task : τ) (token : Nat) : ∃ state',
    Prog.Runs machine thread (liftM (compareToken task token)) state (sameToken (state.tasks task).waitToken token) state' ∧
      state'.tasks = state.tasks ∧ state'.queues = state.queues ∧ state'.memory = state.memory := by
  cases ht : sameToken (state.tasks task).waitToken token
  case false =>
    have hx : machine.exec thread (compareToken task token) state =
        some (false, { state with taken := update state.taken thread none }) := by simp [machine, ht]
    exact ⟨_, .instr hx, rfl, rfl, rfl⟩
  case true =>
    have hx : machine.exec thread (compareToken task token) state =
        some (true, { state with waking := update state.waking thread (some (task, token)) }) := by simp [machine, ht]
    exact ⟨_, .instr hx, rfl, rfl, rfl⟩

theorem lockStatus_runs (thread : τ) {state : WaitState τ} {task : τ} (hl : (state.tasks task).statusLock = none) :
    Prog.Runs machine thread (liftM (lockStatus task)) state (state.tasks task).status
      (state.setTask task ({ · with statusLock := some thread })) :=
  .instr (by simp [machine, unlocked, hl])

-- A waiter that is not blocked yet gets the outcome if it is on its way.
theorem recordTransition_runs (thread : τ) (state : WaitState τ) (task : τ) :
    ∃ state', Prog.Runs machine thread (do
        let transitioning := (← loadReason task).isSome
        if transitioning then
          recordOutcome task .woken
        unlockStatus task
        return transitioning) state (state.tasks task).blockReason.isSome state' ∧
      state'.tasks = update state.tasks task { state.tasks task with
        waitOutcome := if (state.tasks task).blockReason.isSome then some .woken else (state.tasks task).waitOutcome
        statusLock := none } ∧
      state'.queues = state.queues ∧ state'.memory = state.memory := by
  have hload : Prog.Runs machine thread (liftM (loadReason task)) state (state.tasks task).blockReason state :=
    .instr rfl
  cases hr : (state.tasks task).blockReason
  case none =>
    rw [hr] at hload
    refine ⟨_, .bind hload (.bind (.instr rfl) (.ret false)), ?_⟩
    simp [hr]
  case some reason =>
    rw [hr] at hload
    refine ⟨_, .bind hload (.bind (.instr rfl) (.bind (.instr rfl) (.ret true))), ?_⟩
    simp [hr]

theorem wakeTaskTokenWith_runs (hl : ∀ task, (state.tasks task).statusLock = none) (entry : WaitEntry τ) :
    ∃ state', Prog.Runs machine thread (wakeTaskTokenWith entry.task entry.token .woken) state (state.live entry) state' ∧
      WokeEntry state state' entry := by
  obtain ⟨state₁, hcompare, htasks, hqueues, hmemory⟩ := compareToken_runs thread state entry.task entry.token
  cases ht : sameToken (state.tasks entry.task).waitToken entry.token
  case false =>
    have hlive : state.live entry = false := by simp [WaitState.live, ht]
    rw [ht] at hcompare
    rw [hlive]
    exact ⟨_, .bind hcompare (.ret false), ⟨by simp [hlive, htasks], hqueues, hmemory⟩⟩
  case true =>
    rw [ht] at hcompare
    have hunlocked : (state₁.tasks entry.task).statusLock = none := by rw [htasks]; exact hl entry.task
    have hlock := lockStatus_runs thread hunlocked
    by_cases hs : (state.tasks entry.task).status = .blocked
    case pos =>
      have hlive : state.live entry = true := by simp [WaitState.live, ht, hs]
      obtain ⟨state₂, hready, htasks₂, hqueues₂, hmemory₂⟩ := makeReady_runs thread
        (state₁.setTask entry.task ({ · with statusLock := some thread })) entry.task
      rw [hlive]
      refine ⟨state₂, .bind hcompare (.bind hlock ?_), ?_, hqueues₂.trans hqueues, hmemory₂.trans hmemory⟩
      case refine_1 =>
        rw [htasks, if_neg (by simp [hs])]
        exact .bind hready (.ret true)
      case refine_2 =>
        simp [htasks₂, htasks, hlive, wakeEntries, Waiter.wake, hs, hl entry.task]
    case neg =>
      have hnot : (state₁.tasks entry.task).status ≠ .blocked := by rwa [htasks]
      have hlive : state.live entry = (state.tasks entry.task).blockReason.isSome := by simp [WaitState.live, ht, hs]
      obtain ⟨state₂, hrecord, htasks₂, hqueues₂, hmemory₂⟩ := recordTransition_runs thread
        (state₁.setTask entry.task ({ · with statusLock := some thread })) entry.task
      have hreason : ((state₁.setTask entry.task ({ · with statusLock := some thread })).tasks entry.task).blockReason =
          (state.tasks entry.task).blockReason := by simp [htasks]
      rw [hlive, ← hreason]
      refine ⟨state₂, .bind hcompare (.bind hlock ?_), ?_, hqueues₂.trans hqueues, hmemory₂.trans hmemory⟩
      case refine_1 =>
        rw [if_pos hnot]
        exact hrecord
      case refine_2 =>
        rw [htasks₂, hreason, hlive]
        have hfree := hl entry.task
        cases hr : (state.tasks entry.task).blockReason
        case some => simp [htasks, wakeEntries, Waiter.wake, hs, hr, hfree]
        case none =>
          have hsame : { state.tasks entry.task with statusLock := none, blockReason := none } = state.tasks entry.task := by
            simp only [← hfree, ← hr]
          simp [htasks, hr, hsame]

theorem wakeEntries_cons (tasks : τ → Waiter τ) (entry : WaitEntry τ) (entries : List (WaitEntry τ)) :
    wakeEntries tasks (entry :: entries) = wakeEntries (wakeEntries tasks [entry]) entries := rfl

theorem wakeEntries_statusLock (entries : List (WaitEntry τ)) {tasks : τ → Waiter τ}
    (hl : ∀ task, (tasks task).statusLock = none) (task : τ) : (wakeEntries tasks entries task).statusLock = none := by
  induction entries generalizing tasks
  case nil => exact hl task
  case cons entry entries hi =>
    rw [wakeEntries_cons]
    refine hi fun other => ?_
    by_cases ho : other = entry.task
    case neg => simpa [wakeEntries, ho] using hl other
    case pos =>
      subst ho
      simp only [wakeEntries, List.foldl_cons, List.foldl_nil, Function.update_self, Waiter.wake]
      split <;> exact hl entry.task

namespace WokeEntry

variable {other : WaitEntry τ}

theorem unlocked (h : WokeEntry state state' entry) (hl : ∀ task, (state.tasks task).statusLock = none) (task : τ) :
    (state'.tasks task).statusLock = none := by
  rw [h.tasks]
  split
  case isFalse => exact hl task
  case isTrue => exact wakeEntries_statusLock [entry] hl task

theorem live (h : WokeEntry state state' entry) (hne : other.task ≠ entry.task) :
    state'.live other = state.live other := by
  have htask : state'.tasks other.task = state.tasks other.task := by
    rw [h.tasks]
    split
    case isFalse => rfl
    case isTrue => simp [wakeEntries, hne]
  simp only [WaitState.live, htask]

theorem filter_live (h : WokeEntry state state' entry) (hne : ∀ other ∈ entries, other.task ≠ entry.task) :
    entries.filter state'.live = entries.filter state.live :=
  List.filter_congr fun other ho => h.live (hne other ho)

end WokeEntry

theorem wakeTasks_runs (thread : τ) (hl : ∀ task, (state.tasks task).statusLock = none)
    (hd : (entries.map (·.task)).Nodup) :
    ∃ state', Prog.Runs machine thread (wakeTasks .woken (entries.map fun entry => (entry.task, entry.token))) state
        (entries.filter state.live).length state' ∧
      state'.tasks = wakeEntries state.tasks (entries.filter state.live) ∧ state'.queues = state.queues ∧
      state'.memory = state.memory := by
  induction entries generalizing state
  case nil => exact ⟨state, .ret 0, rfl, rfl, rfl⟩
  case cons entry entries hi =>
    obtain ⟨hne, hd⟩ := List.nodup_cons.mp hd
    have hother : ∀ other ∈ entries, other.task ≠ entry.task := fun other ho he => hne (List.mem_map.mpr ⟨other, ho, he⟩)
    obtain ⟨state₁, hwake, hwoke⟩ := wakeTaskTokenWith_runs hl entry
    obtain ⟨state₂, hrest, htasks, hqueues, hmemory⟩ := hi (hwoke.unlocked hl) hd
    rw [hwoke.filter_live hother] at hrest htasks
    refine ⟨state₂, .bind hwake (.bind hrest ?_), ?_, hqueues.trans hwoke.queues, hmemory.trans hwoke.memory⟩
    case refine_1 =>
      cases hlive : state.live entry
      case false =>
        rw [List.filter_cons_of_neg (by simp [hlive])]
        exact .ret _
      case true =>
        rw [List.filter_cons_of_pos hlive]
        exact .ret _
    case refine_2 =>
      rw [htasks, hwoke.tasks]
      cases hlive : state.live entry
      case false => simp [hlive]
      case true =>
        rw [List.filter_cons_of_pos hlive, wakeEntries_cons]
        rfl

-- The first entry that a filter accepts leaves the queue.
theorem takeWaiter_runs (thread : τ) (state : WaitState τ) (filter : WakeFilter) :
    (∃ state', Prog.Runs machine thread (liftM (takeWaiter .futex filter : WaitInstr τ _)) state none state' ∧
      (∀ entry ∈ state.queues .futex, filter.accepts entry.key = false) ∧
      state'.tasks = state.tasks ∧ state'.queues = state.queues ∧ state'.memory = state.memory) ∨
    ∃ state' entry before after, Prog.Runs machine thread (liftM (takeWaiter .futex filter : WaitInstr τ _)) state (some entry) state' ∧
      state.queues .futex = before ++ entry :: after ∧ (∀ other ∈ before, filter.accepts other.key = false) ∧
      filter.accepts entry.key ∧ state'.tasks = state.tasks ∧ state'.queues .futex = before ++ after ∧
      state'.memory = state.memory := by
  have hrun : Prog.Runs machine thread (liftM (takeWaiter .futex filter : WaitInstr τ _)) state
      (takeWaiterExec thread .futex filter state).1 (takeWaiterExec thread .futex filter state).2 := .instr rfl
  cases hf : (state.queues .futex).find? (filter.accepts ·.key)
  case none =>
    rw [takeWaiterExec, hf] at hrun
    exact .inl ⟨_, hrun, by simpa using hf, rfl, rfl, rfl⟩
  case some entry =>
    rw [takeWaiterExec, hf] at hrun
    obtain ⟨ha, before, after, hq, hbefore⟩ := List.find?_eq_some_iff_append.mp hf
    have hbefore : ∀ other ∈ before, filter.accepts other.key = false := fun other ho => by simpa using hbefore other ho
    refine .inr ⟨_, entry, before, after, hrun, hq, hbefore, ha, rfl, ?_, rfl⟩
    have herase : (before ++ entry :: after).eraseP (filter.accepts ·.key) = before ++ after := by
      rw [List.eraseP_append_right _ (by simpa using hbefore)]
      simp [ha]
    simp [WaitState.setQueue, hq, herase]

namespace WaitState

variable {before after : List (WaitEntry τ)} {woke : Nat}

-- A wake that goes on after the first entry of a futex has been taken out.
theorem WakesFirst.cons {state₁ state₂ : WaitState τ} {count : Nat} (hq : state.FutexQuiet)
    (hsplit : state.queues .futex = before ++ entry :: after) (hbefore : ∀ other ∈ before, filter.accepts other.key = false)
    (ha : filter.accepts entry.key) (hqueue : state₁.queues .futex = before ++ after) (hwoke : state₁.tasks =
      if state.live entry then wakeEntries state.tasks [entry] else state.tasks) (hmemory : state₁.memory = state.memory)
    (hlive : ∀ other, other.task ≠ entry.task → state₁.live other = state.live other) (hn : woke < n)
    (h : state₁.WakesFirst state₂ filter (n - if state.live entry then woke + 1 else woke) count) :
    state.WakesFirst state₂ filter (n - woke) (if state.live entry then count + 1 else count) := by
  have hd : ((before ++ entry :: after).map (·.task)).Nodup := hsplit ▸ hq.once
  have hne : ∀ other ∈ before ++ after, other.task ≠ entry.task := by
    intro other ho he
    simp only [List.map_append, List.map_cons, List.nodup_append, List.nodup_cons] at hd
    obtain hb | ha := List.mem_append.mp ho
    case inl => exact hd.2.2 _ (List.mem_map_of_mem hb) _ List.mem_cons_self he
    case inr => exact hd.2.1.1 (he ▸ List.mem_map_of_mem ha)
  have hnot : ∀ other ∈ before ++ after, other ≠ entry := fun other ho he => hne other ho (he ▸ rfl)
  have hfilter : ∀ entries : List (WaitEntry τ), (∀ other ∈ entries, other ∈ before ++ after) →
      entries.filter state₁.live = entries.filter state.live :=
    fun entries hsub => List.filter_congr fun other ho => hlive other (hne other (hsub other ho))
  have hwaiters : state₁.waitersFor filter = (before ++ after).filter fun other => state.live other && filter.accepts other.key := by
    rw [waitersFor, hqueue]
    exact List.filter_congr fun other ho => by rw [hlive other (hne other ho)]
  have hnone : before.filter (fun other => state.live other && filter.accepts other.key) = [] := by
    simpa using fun other ho hl => hbefore other ho
  have hcons : state.waitersFor filter =
      if state.live entry then entry :: state₁.waitersFor filter else state₁.waitersFor filter := by
    rw [hwaiters, waitersFor, hsplit, List.filter_append, List.filter_append, hnone, List.nil_append, List.nil_append,
      List.filter_cons, ha, Bool.and_true]
  have hkept : (state₂.queues .futex).filter state.live =
      ((before ++ after).filter state.live).filter (· ∉ (state₁.waitersFor filter).take
        (n - if state.live entry then woke + 1 else woke)) := by
    have hsub := hqueue ▸ h.sublist
    rw [← hfilter _ fun other ho => hsub.subset ho, h.kept, hqueue, hfilter _ fun _ => id]
  have hsublist : (state₂.queues .futex).Sublist (state.queues .futex) := by
    refine h.sublist.trans ?_
    rw [hqueue, hsplit]
    exact (List.sublist_cons_self entry after).append_left before
  cases hl : state.live entry
  case false =>
    simp only [hl, Bool.false_eq_true, if_false] at h hcons hwoke hkept ⊢
    refine ⟨by rw [hcons, h.count], by rw [h.tasks, hwoke, hcons], hsublist, ?_, h.memory.trans hmemory⟩
    rw [hkept, hcons, hsplit]
    simp [hl]
  case true =>
    simp only [hl, if_true] at h hcons hwoke hkept ⊢
    have hstep : n - woke = n - (woke + 1) + 1 := by omega
    refine ⟨?_, ?_, hsublist, ?_, h.memory.trans hmemory⟩
    · rw [hcons, hstep, List.take_succ_cons, List.length_cons, h.count]
    · rw [hcons, hstep, List.take_succ_cons, wakeEntries_cons, h.tasks, hwoke]
    · rw [hkept, hcons, hsplit, hstep, List.take_succ_cons]
      simp only [List.filter_append, List.filter_cons, hl, if_true, List.mem_cons, true_or, not_true_eq_false, decide_false,
        Bool.false_eq_true, if_false]
      rw [← List.filter_append, ← List.filter_append, ← List.filter_append, ← List.filter_append]
      refine List.filter_congr fun other ho => ?_
      simp [hnot other (List.mem_filter.mp ho).1]

end WaitState

omit [DecidableEq τ] in
theorem WaitState.FutexQuiet.of_take {before after : List (WaitEntry τ)} (hq : state.FutexQuiet)
    (hsplit : state.queues .futex = before ++ entry :: after) (hqueue : state'.queues .futex = before ++ after)
    (hl : ∀ task, (state'.tasks task).statusLock = none) : state'.FutexQuiet := by
  refine ⟨hl, ?_⟩
  have honce := hq.once
  rw [hsplit] at honce
  rw [hqueue]
  exact honce.sublist (((List.sublist_cons_self entry after).append_left before).map _)

theorem wakeMatching_runs (thread : τ) (hq : state.FutexQuiet) (filter : WakeFilter) (n : Nat) :
    ∃ count state', Prog.Runs machine thread (wakeMatching .futex (some n) filter) state count state' ∧
      state.WakesFirst state' filter n count := by
  suffices h : ∃ count state', Prog.Runs machine thread (wakeMatching .futex (some n) filter) state count state' ∧
      ∃ more, count = 0 + more ∧ state.WakesFirst state' filter (n - 0) more by
    obtain ⟨_, state', hrun, more, rfl, hwakes⟩ := h
    exact ⟨more, state', by simpa using hrun, hwakes⟩
  unfold wakeMatching
  refine Prog.Runs.loop (fun _ (state : WaitState τ) => state.FutexQuiet)
    (fun woke (state : WaitState τ) count state' => ∃ more, count = woke + more ∧
      state.WakesFirst state' filter (n - woke) more)
    (fun _ state => (state.queues .futex).length) (fun woke state hq => ?_) hq
  by_cases hn : n ≤ woke
  case pos =>
    refine .inl ⟨woke, state, ?_, 0, rfl, ?_⟩
    case refine_1 =>
      simp only [Option.any_some, hn, decide_true, if_true]
      exact .ret _
    case refine_2 => exact ⟨by simp [hn], by simp [hn, wakeEntries], .refl _, by simp [hn], rfl⟩
  case neg =>
    simp only [Option.any_some, hn, decide_false, Bool.false_eq_true, if_false]
    obtain ⟨state₁, htake, hnone, htasks, hqueues, hmemory⟩ | ⟨state₁, entry, before, after, htake, hsplit, hbefore, ha, htasks,
      hqueue, hmemory⟩ := takeWaiter_runs thread state filter
    case inl =>
      have hwaiters : state.waitersFor filter = [] := by
        simpa [WaitState.waitersFor] using fun entry he _ => hnone entry he
      refine .inl ⟨woke, state₁, .bind htake (.ret _), 0, rfl, ?_⟩
      refine ⟨by simp [hwaiters], by simp [hwaiters, htasks, wakeEntries], ?_, ?_, hmemory⟩
      · rw [hqueues]
      · simp [hqueues, hwaiters]
    case inr =>
      have hl : ∀ task, (state₁.tasks task).statusLock = none := fun task => by rw [htasks]; exact hq.unlocked task
      have hlive₁ : state₁.live = state.live := by
        funext other
        simp only [WaitState.live, htasks]
      obtain ⟨state₂, hwake, hwoke⟩ := wakeTaskTokenWith_runs hl entry
      have hqueue₂ : state₂.queues .futex = before ++ after := by rw [hwoke.queues, hqueue]
      have hlive₂ : ∀ other, other.task ≠ entry.task → state₂.live other = state.live other :=
        fun other hne => (hwoke.live hne).trans (by rw [hlive₁])
      have htasks₂ := hwoke.tasks
      rw [hlive₁, htasks] at htasks₂
      rw [hlive₁] at hwake
      refine .inr ⟨if state.live entry then woke + 1 else woke, state₂, .bind htake (.bind hwake ?_),
        hq.of_take hsplit hqueue₂ (hwoke.unlocked hl), ?_, fun count state'' hmore => ?_⟩
      case refine_1 => cases state.live entry <;> exact .ret _
      case refine_2 =>
        rw [hqueue₂, hsplit]
        simp
      case refine_3 =>
        obtain ⟨more, rfl, hwakes⟩ := hmore
        refine ⟨if state.live entry then more + 1 else more, ?_, hwakes.cons hq hsplit hbefore ha hqueue₂ htasks₂
          (hwoke.memory.trans hmemory) hlive₂ (Nat.not_le.mp hn)⟩
        split <;> omega

theorem futexWakeAddrKey_runs (thread : τ) (hq : state.FutexQuiet) {uaddr : Nat} (hu : uaddr ≠ 0) (key n : Nat)
    (bitset : BitVec 64) : ∃ count state', Prog.Runs machine thread (futexWakeAddrKey uaddr key n bitset) state count state' ∧
      state.WakesFirst state' (.futex uaddr key bitset) n count := by
  by_cases hn : n = 0
  case pos =>
    refine ⟨0, state, ?_, ?_⟩
    case refine_1 =>
      simp only [futexWakeAddrKey, hn, or_true, if_true]
      exact .ret _
    case refine_2 => exact ⟨by simp [hn], by simp [hn, wakeEntries], .refl _, by simp [hn], rfl⟩
  case neg =>
    obtain ⟨count, state', hrun, hwakes⟩ := wakeMatching_runs thread hq (.futex uaddr key bitset) n
    refine ⟨count, { state' with scan := update state'.scan thread none }, ?_, ?_⟩
    case refine_1 =>
      simp only [futexWakeAddrKey, hu, hn, or_self, if_false]
      exact .bind hrun (.bind (.instr rfl) (.ret _))
    case refine_2 => exact ⟨hwakes.count, hwakes.tasks, hwakes.sublist, hwakes.kept, hwakes.memory⟩

theorem mayRequeue_runs (thread : τ) (state : WaitState τ) (args : FutexRequeue) :
    Prog.Runs machine thread (liftM (shouldSleep args.mayRequeue : WaitInstr τ _)) state (args.mayRequeue state.memory)
      state :=
  .instr rfl

-- A requeue that fails has only looked at the memory.
theorem futexRequeueAddr_error {args : FutexRequeue} {error : SysErrNo} (h : args.target state.memory = .error error) :
    Prog.Runs machine thread (futexRequeueAddr args) state (.error error) state := by
  have hmay := mayRequeue_runs thread state args
  simp only [FutexRequeue.target] at h
  simp only [futexRequeueAddr]
  cases hv : args.valid
  case error error' =>
    rw [hv] at h
    cases h
    exact .ret _
  case ok =>
    rw [hv] at h
    cases hm : args.mayRequeue state.memory
    case error error' =>
      rw [hm] at h hmay
      cases h
      exact .bind hmay (.ret _)
    case ok may =>
      rw [hm] at h hmay
      cases may
      case false =>
        cases h
        exact .bind hmay (.ret _)
      case true =>
        refine .bind hmay ?_
        cases ha : args.addrKey <;> cases ha₂ : args.addrKey2 <;> rw [ha, ha₂] at h <;> cases h <;> exact .ret _

-- A requeue counts stale waiters like live ones.
theorem futexRequeueAddr_ok {args : FutexRequeue} {addr key addr2 key2 : Nat} (hq : state.FutexQuiet)
    (h : args.target state.memory = .ok ((addr, key), (addr2, key2))) :
    let waiters := (state.queues .futex).filter ((WakeFilter.futexKey addr key).accepts ·.key)
    let taken := waiters.take args.nrWake
    let moved := (waiters.drop args.nrWake).take args.nrRequeue
    ∃ state', Prog.Runs machine thread (futexRequeueAddr args) state
        (.ok ((taken.filter state.live).length + moved.length)) state' ∧
      state'.tasks = wakeEntries state.tasks (taken.filter state.live) ∧
      state'.queues .futex = ((state.queues .futex).filter (· ∉ taken)).map (fun entry =>
        if entry ∈ moved then { entry with key := EntryKey.requeued addr2 key2 entry.key } else entry) ∧
      state'.memory = state.memory := by
  intro waiters taken moved
  have hmay := mayRequeue_runs thread state args
  have hnodup : (state.queues .futex).Nodup := List.Nodup.of_map _ hq.once
  have htaken : (takeEntries (.futexKey addr key) (state.queues .futex) args.nrWake).1 = taken := takeEntries_taken
  have hrest : (takeEntries (.futexKey addr key) (state.queues .futex) args.nrWake).2 =
      (state.queues .futex).filter (· ∉ taken) := takeEntries_rest hnodup
  -- The waiters that are left are those after the ones that have been taken.
  have hleft : ((state.queues .futex).filter (· ∉ taken)).filter ((WakeFilter.futexKey addr key).accepts ·.key) =
      waiters.drop args.nrWake := by
    rw [List.filter_comm]
    exact Lists.filter_not_mem_take (hnodup.filter _)
  have hrequeue : Prog.Runs machine thread
      (liftM (requeue (.futexKey addr key) addr2 key2 args.nrWake args.nrRequeue : WaitInstr τ _)) state
      (taken, moved.length) (state.setQueue .futex fun _ => ((state.queues .futex).filter (· ∉ taken)).map (fun entry =>
        if entry ∈ moved then { entry with key := EntryKey.requeued addr2 key2 entry.key } else entry)) := by
    refine .instr ?_
    simp only [machine, htaken, hrest, requeueEntries_count, requeueEntries_entries (hnodup.filter _), hleft, moved]
  have hl : ∀ task, ((state.setQueue .futex fun _ => ((state.queues .futex).filter (· ∉ taken)).map (fun entry =>
      if entry ∈ moved then { entry with key := EntryKey.requeued addr2 key2 entry.key } else entry)).tasks task).statusLock =
        none := hq.unlocked
  have honce : (taken.map (·.task)).Nodup :=
    hq.once.sublist (((List.take_sublist _ _).trans List.filter_sublist).map _)
  obtain ⟨state', hwake, htasks, hqueues, hmemory⟩ := wakeTasks_runs thread hl honce
  refine ⟨state', ?_, htasks, by simp [hqueues, WaitState.setQueue], hmemory⟩
  simp only [FutexRequeue.target] at h
  simp only [futexRequeueAddr]
  cases hv : args.valid
  case error => rw [hv] at h; cases h
  case ok =>
    rw [hv] at h
    cases hm : args.mayRequeue state.memory
    case error => rw [hm] at h; cases h
    case ok may =>
      rw [hm] at h hmay
      cases may
      case false => cases h
      case true =>
        refine .bind hmay ?_
        cases ha : args.addrKey <;> cases ha₂ : args.addrKey2 <;> rw [ha, ha₂] at h <;> cases h
        exact .bind hrequeue (.bind hwake (.ret _))

section Requeue

variable {addr key addr2 key2 nrWake nrRequeue : Nat} {waiters : List (WaitEntry τ)}

omit [DecidableEq τ] in
theorem waitersFor_eq : state.waitersFor filter =
    ((state.queues .futex).filter (filter.accepts ·.key)).filter state.live := by
  rw [WaitState.waitersFor, List.filter_filter]

-- An entry that is moved to where it is stays as it is, and any other move changes it.
omit [DecidableEq τ] in
theorem moved_eq_iff (ha : (WakeFilter.futexKey addr key).accepts entry.key) :
    { entry with key := EntryKey.requeued addr2 key2 entry.key } = entry ↔ (addr2, key2) = (addr, key) := by
  obtain ⟨task, token, entryKey⟩ := entry
  cases entryKey with
  | futex a k bitset =>
    simp only [WakeFilter.accepts, Bool.and_eq_true, decide_eq_true_eq] at ha
    simp [EntryKey.requeued, ha]
  | _ => simp [WakeFilter.accepts] at ha

-- The live ones among the entries that are left, and among those of them that are moved.
theorem filter_live_moved {left moved : List (WaitEntry τ)} {uaddr key : Nat} :
    (left.map fun entry => if entry ∈ moved then { entry with key := EntryKey.requeued uaddr key entry.key } else entry).filter
      state.live =
    (left.filter state.live).map fun entry =>
      if entry ∈ moved then { entry with key := EntryKey.requeued uaddr key entry.key } else entry := by
  rw [List.filter_map]
  refine congrArg _ (List.filter_congr fun entry _ => ?_)
  simp only [Function.comp_apply]
  split <;> rfl

theorem requeues_of_sound
    (hw : waiters = (state.queues .futex).filter ((WakeFilter.futexKey addr key).accepts ·.key))
    (htasks : state'.tasks = wakeEntries state.tasks ((waiters.take nrWake).filter state.live))
    (hqueue : state'.queues .futex = ((state.queues .futex).filter (· ∉ waiters.take nrWake)).map (fun entry =>
      if entry ∈ (waiters.drop nrWake).take nrRequeue then { entry with key := EntryKey.requeued addr2 key2 entry.key }
      else entry)) (hmemory : state'.memory = state.memory)
    (hwake : (∀ entry ∈ waiters.take nrWake, state.live entry) ∨ ∀ entry ∈ waiters.drop nrWake, ¬state.live entry)
    (hmove : (∀ entry ∈ (waiters.drop nrWake).take nrRequeue, state.live entry) ∨
      (addr2, key2) = (addr, key) ∧ nrRequeue ≤ ((waiters.drop nrWake).filter state.live).length) :
    state.Requeues state' (.futexKey addr key) addr2 key2 nrWake nrRequeue
      (((waiters.take nrWake).filter state.live).length + ((waiters.drop nrWake).take nrRequeue).length) := by
  have htake := Lists.take_filter_eq_iff.mpr hwake
  have hdrop := Lists.drop_filter_of_take htake
  have hfor : state.waitersFor (.futexKey addr key) = waiters.filter state.live := by rw [waitersFor_eq, hw]
  have hsame : ∀ entry ∈ state.queues .futex, state.live entry →
      (entry ∉ waiters.take nrWake ↔ entry ∉ (waiters.take nrWake).filter state.live) := by
    intro entry _ hl
    simp [hl]
  have hleft : ((state.queues .futex).filter (· ∉ waiters.take nrWake)).filter state.live =
      ((state.queues .futex).filter state.live).filter (· ∉ (waiters.take nrWake).filter state.live) := by
    rw [List.filter_comm]
    refine List.filter_congr fun entry he => ?_
    obtain ⟨hmem, hl⟩ := List.mem_filter.mp he
    simp [hsame entry hmem hl]
  refine ⟨?count, ?tasks, ?kept, hmemory⟩
  case tasks => rw [htasks, hfor, htake]
  case count =>
    rw [hfor, htake, hdrop]
    refine congrArg _ ?_
    obtain hall | ⟨_, hle⟩ := hmove
    case inl => rw [Lists.take_filter_eq_iff.mpr (.inl hall), List.filter_eq_self.mpr hall]
    case inr =>
      have hlen := List.length_filter_le state.live (waiters.drop nrWake)
      simp only [List.length_take]
      omega
  case kept =>
    rw [hqueue, filter_live_moved, hleft, hfor, htake, hdrop]
    refine List.map_congr_left fun entry he => ?_
    obtain hall | ⟨hsame, _⟩ := hmove
    case inl => rw [Lists.take_filter_eq_iff.mpr (.inl hall), List.filter_eq_self.mpr hall]
    case inr =>
      have hstays : ∀ moved : List (WaitEntry τ), (∀ other ∈ moved, other ∈ waiters) →
          (if entry ∈ moved then { entry with key := EntryKey.requeued addr2 key2 entry.key } else entry) = entry := by
        intro moved hsub
        split
        case isFalse => rfl
        case isTrue hm =>
          have hmem := hsub entry hm
          rw [hw] at hmem
          exact (moved_eq_iff (List.mem_filter.mp hmem).2).mpr hsame
      rw [hstays _ fun other ho => List.mem_of_mem_drop (List.mem_of_mem_take ho),
        hstays _ fun other ho => List.mem_of_mem_drop (List.mem_filter.mp (List.mem_of_mem_take ho)).1]

theorem sound_of_requeues {count : Nat} (hq : state.FutexQuiet)
    (hw : waiters = (state.queues .futex).filter ((WakeFilter.futexKey addr key).accepts ·.key))
    (hqueue : state'.queues .futex = ((state.queues .futex).filter (· ∉ waiters.take nrWake)).map (fun entry =>
      if entry ∈ (waiters.drop nrWake).take nrRequeue then { entry with key := EntryKey.requeued addr2 key2 entry.key }
      else entry))
    (hcount : count = ((waiters.take nrWake).filter state.live).length + ((waiters.drop nrWake).take nrRequeue).length)
    (h : state.Requeues state' (.futexKey addr key) addr2 key2 nrWake nrRequeue count) :
    ((∀ entry ∈ waiters.take nrWake, state.live entry) ∨ ∀ entry ∈ waiters.drop nrWake, ¬state.live entry) ∧
    ((∀ entry ∈ (waiters.drop nrWake).take nrRequeue, state.live entry) ∨
      (addr2, key2) = (addr, key) ∧ nrRequeue ≤ ((waiters.drop nrWake).filter state.live).length) := by
  have hnodup : (state.queues .futex).Nodup := List.Nodup.of_map _ hq.once
  have hwaiters : waiters.Nodup := hw ▸ hnodup.filter _
  have hmem : ∀ entry ∈ waiters, entry ∈ state.queues .futex ∧ (WakeFilter.futexKey addr key).accepts entry.key := by
    intro entry he
    rw [hw] at he
    exact List.mem_filter.mp he
  have hfor : state.waitersFor (.futexKey addr key) = waiters.filter state.live := by rw [waitersFor_eq, hw]
  have hkept := h.kept
  rw [hqueue, filter_live_moved, hfor] at hkept
  -- The tasks tell which entries are left.
  have hleft : ((state.queues .futex).filter (· ∉ waiters.take nrWake)).filter state.live =
      ((state.queues .futex).filter state.live).filter (· ∉ (waiters.filter state.live).take nrWake) := by
    have htask {moved left : List (WaitEntry τ)} : (left.map fun entry => if entry ∈ moved then
        { entry with key := EntryKey.requeued addr2 key2 entry.key } else entry).map (·.task) = left.map (·.task) := by
      rw [List.map_map]
      refine List.map_congr_left fun entry _ => ?_
      simp only [Function.comp_apply]
      split <;> rfl
    refine Lists.eq_of_map_eq (List.inj_on_of_nodup_map hq.once) ?_ ?_ ?_
    · exact fun entry he => (List.mem_filter.mp (List.mem_filter.mp he).1).1
    · exact fun entry he => (List.mem_filter.mp (List.mem_filter.mp he).1).1
    · rw [← htask, hkept, htask]
  have hsame : ∀ entry ∈ waiters, state.live entry →
      (entry ∈ waiters.take nrWake ↔ entry ∈ (waiters.filter state.live).take nrWake) := by
    intro entry he hl
    have hiff := congrArg (entry ∈ ·) hleft
    simp only [List.mem_filter, (hmem entry he).1, hl, true_and, and_true, decide_eq_true_eq, eq_iff_iff] at hiff
    exact not_iff_not.mp hiff
  have hwake : (∀ entry ∈ waiters.take nrWake, state.live entry) ∨ ∀ entry ∈ waiters.drop nrWake, ¬state.live entry := by
    by_contra hc
    simp only [not_or, not_forall, not_not] at hc
    obtain ⟨⟨stale, hs, hstale⟩, entry, he, hl⟩ := hc
    have hfull : nrWake ≤ (waiters.filter state.live).length := by
      by_contra hshort
      have hin : entry ∈ (waiters.filter state.live).take nrWake := by
        rw [List.take_of_length_le (by omega)]
        exact List.mem_filter.mpr ⟨List.mem_of_mem_drop he, hl⟩
      exact List.disjoint_take_drop hwaiters le_rfl ((hsame entry (List.mem_of_mem_drop he) hl).mpr hin) he
    have hsub : (waiters.filter state.live).take nrWake ⊆ (waiters.take nrWake).filter state.live := by
      intro other ho
      obtain ⟨hmem, hl⟩ := List.mem_filter.mp (List.mem_of_mem_take ho)
      exact List.mem_filter.mpr ⟨(hsame other hmem hl).mpr ho, hl⟩
    have hle := ((hwaiters.filter state.live).sublist (List.take_sublist ..)).subperm hsub |>.length_le
    have hlt : ((waiters.take nrWake).filter state.live).length < (waiters.take nrWake).length :=
      List.length_filter_lt_length_iff_exists.mpr ⟨stale, hs, hstale⟩
    simp only [List.length_take] at hle hlt
    omega
  refine ⟨hwake, ?_⟩
  have htake := Lists.take_filter_eq_iff.mpr hwake
  have hdrop := Lists.drop_filter_of_take htake
  have hlen : ((waiters.drop nrWake).take nrRequeue).length =
      (((waiters.drop nrWake).filter state.live).take nrRequeue).length := by
    have he := hcount.symm.trans h.count
    rw [hfor, htake, hdrop] at he
    exact Nat.add_left_cancel he
  by_cases hplace : (addr2, key2) = (addr, key)
  case pos =>
    by_cases hle : nrRequeue ≤ ((waiters.drop nrWake).filter state.live).length
    case pos => exact .inr ⟨hplace, hle⟩
    case neg =>
      simp only [List.length_take] at hlen
      have hall : ((waiters.drop nrWake).filter state.live).length = (waiters.drop nrWake).length := by omega
      refine .inl fun entry he => ?_
      have hself := List.filter_sublist.eq_of_length hall
      exact List.filter_eq_self.mp hself entry (List.mem_of_mem_take he)
  case neg =>
    have hmoved : ((waiters.drop nrWake).filter state.live).take nrRequeue ⊆
        ((waiters.drop nrWake).take nrRequeue).filter state.live := by
      intro entry he
      obtain ⟨hd, hl⟩ := List.mem_filter.mp (List.mem_of_mem_take he)
      have hw' := List.mem_of_mem_drop hd
      rw [hleft, List.map_inj_left, hdrop, htake] at hkept
      have hentry := hkept entry (List.mem_filter.mpr ⟨List.mem_filter.mpr ⟨(hmem entry hw').1, hl⟩, ?_⟩)
      case refine_1 =>
        simp only [decide_eq_true_eq]
        exact fun hin => List.disjoint_take_drop hwaiters le_rfl (List.mem_filter.mp hin).1 hd
      rw [if_pos he] at hentry
      split at hentry
      case isTrue hin => exact List.mem_filter.mpr ⟨hin, hl⟩
      case isFalse => exact absurd ((moved_eq_iff (hmem entry hw').2).mp hentry.symm) hplace
    have hle := (((hwaiters.sublist (List.drop_sublist ..)).filter state.live).sublist (List.take_sublist ..)).subperm hmoved
      |>.length_le
    have hle' := List.length_filter_le state.live ((waiters.drop nrWake).take nrRequeue)
    have hself := List.filter_sublist.eq_of_length (Nat.le_antisymm hle' (hlen ▸ hle))
    exact .inl (List.filter_eq_self.mp hself)

end Requeue

theorem WaitState.WakesFirst.quiet {count : Nat} (h : state.WakesFirst state' filter n count) (hq : state.FutexQuiet) :
    state'.FutexQuiet where
  unlocked := h.tasks ▸ wakeEntries_statusLock _ hq.unlocked
  once := hq.once.sublist (h.sublist.map _)

theorem futexWakeAddrBitset_runs (thread : τ) (hq : state.FutexQuiet) (uaddr : Nat) (addrKey : Except SysErrNo (Nat × Nat))
    (n : Nat) (bitset : BitVec 64) : ∃ result state',
      Prog.Runs machine thread (futexWakeAddrBitset uaddr addrKey n bitset) state result state' ∧ state'.FutexQuiet := by
  unfold futexWakeAddrBitset
  split
  case isTrue => exact ⟨_, state, .ret _, hq⟩
  case isFalse =>
    cases addrKey
    case error error => exact ⟨.error error, state, .ret _, hq⟩
    case ok addrKey =>
      obtain ⟨addr, key⟩ := addrKey
      by_cases ha : addr = 0
      case pos =>
        refine ⟨.ok 0, state, .bind (a := 0) ?_ (.ret _), hq⟩
        simp only [futexWakeAddrKey, ha, true_or, if_true]
        exact .ret _
      case neg =>
        obtain ⟨count, state', hrun, hwakes⟩ := futexWakeAddrKey_runs thread hq ha key n bitset
        exact ⟨.ok count, state', .bind hrun (.ret _), hwakes.quiet hq⟩

theorem futexWakeOpWake_runs (thread : τ) (hq : state.FutexQuiet) (args : FutexWakeOp) (cmpMatches : Bool) :
    ∃ result state', Prog.Runs machine thread (futexWakeOpWake args cmpMatches) state result state' := by
  obtain ⟨result, state₁, hfirst, hq₁⟩ :=
    futexWakeAddrBitset_runs thread hq args.uaddr args.addrKey args.nrWake (BitVec.allOnes 64)
  cases result
  case error error => exact ⟨.error error, state₁, .bind hfirst (.ret _)⟩
  case ok woke =>
    cases cmpMatches
    case false => exact ⟨.ok woke, state₁, .bind hfirst (.ret _)⟩
    case true =>
      obtain ⟨result, state₂, hsecond, _⟩ :=
        futexWakeAddrBitset_runs thread hq₁ args.uaddr2 args.addrKey2 args.nrWake2 (BitVec.allOnes 64)
      cases result
      case error error => exact ⟨.error error, state₂, .bind hfirst (.bind hsecond (.ret _))⟩
      case ok woke2 => exact ⟨.ok (woke + woke2), state₂, .bind hfirst (.bind hsecond (.ret _))⟩

theorem FutexOpArg.apply_isSome {arg : FutexOpArg} {old new : BitVec 32} (h : arg.apply old = some new) : arg.op ≤ 4 := by
  by_contra hlt
  have hne : arg.op ≠ 0 ∧ arg.op ≠ 1 ∧ arg.op ≠ 2 ∧ arg.op ≠ 3 ∧ arg.op ≠ 4 := by omega
  simp [apply, hne] at h

theorem FutexOpArg.compare_isSome (arg : FutexOpArg) (old : BitVec 32) : (arg.compare old).isSome ↔ arg.cmp ≤ 5 := by
  constructor
  case mp =>
    intro h
    by_contra hlt
    have hne : arg.cmp ≠ 0 ∧ arg.cmp ≠ 1 ∧ arg.cmp ≠ 2 ∧ arg.cmp ≠ 3 ∧ arg.cmp ≠ 4 ∧ arg.cmp ≠ 5 := by omega
    simp [compare, hne] at h
  case mpr =>
    intro h
    have hcmp : arg.cmp = 0 ∨ arg.cmp = 1 ∨ arg.cmp = 2 ∨ arg.cmp = 3 ∨ arg.cmp = 4 ∨ arg.cmp = 5 := by omega
    obtain h | h | h | h | h | h := hcmp <;> simp [compare, h]

-- A `FUTEX_WAKE_OP` fails before it writes, or when it has written and looks at its comparison, or it goes on to its wakes.
theorem FutexWakeOp.operate_cases (args : FutexWakeOp) (memory : Memory) :
    (∃ error, args.operate memory = (memory, .error error)) ∨
    ∃ arg old new memory', args.valid = .ok () ∧ args.valid2 = .ok () ∧ futexWakeOpArg args.encodedOp = some arg ∧
      args.read memory = .ok old ∧ arg.apply old = some new ∧ args.write new memory = .ok memory' ∧
      args.operate memory = (memory', match arg.compare old with
        | none            => .error .EINVAL
        | some cmpMatches => .ok cmpMatches) := by
  simp only [operate]
  cases hv : args.valid
  case error error => exact .inl ⟨error, by cases args.valid2 <;> rfl⟩
  case ok =>
    cases hv₂ : args.valid2
    case error error => exact .inl ⟨error, rfl⟩
    case ok =>
      cases ha : futexWakeOpArg args.encodedOp
      case none => exact .inl ⟨.EINVAL, rfl⟩
      case some arg =>
        cases hr : args.read memory
        case error error => exact .inl ⟨error, rfl⟩
        case ok old =>
          cases hn : arg.apply old
          case none => exact .inl ⟨.EINVAL, by simp [hn]⟩
          case some new =>
            cases hw : args.write new memory
            case error error => exact .inl ⟨error, by simp [hn, hw]⟩
            case ok memory' =>
              refine .inr ⟨arg, old, new, memory', rfl, rfl, rfl, rfl, hn, hw, ?_⟩
              cases hc : arg.compare old <;> simp [hn, hw, hc]

namespace FutexCall

theorem wake_correct (hq : state.FutexQuiet) (uaddr key n : Nat) (bitset : BitVec 64) :
    (wake uaddr key n bitset).Correct thread state := by
  by_cases hu : uaddr = 0
  case pos =>
    refine ⟨⟨.ok 0, state, 0, rfl, ?_⟩, fun _ _ _ hne => absurd hu hne⟩
    simp only [futexWakeAddrKey, hu, true_or, if_true]
    exact .ret _
  case neg =>
    obtain ⟨count, state', hrun, hwakes⟩ := futexWakeAddrKey_runs thread hq hu key n bitset
    refine ⟨⟨.ok count, state', count, rfl, hrun⟩, fun result state'' h _ => ?_⟩
    obtain ⟨count', rfl, hrun'⟩ := h
    obtain ⟨rfl, rfl⟩ := hrun.unique hrun'
    exact ⟨count, rfl, hwakes⟩

theorem requeue_correct_iff (hq : state.FutexQuiet) (args : FutexRequeue) :
    (requeue args).Correct thread state ↔ (requeue args).Sound state := by
  cases ht : args.target state.memory
  case error error =>
    have hrun : Prog.Runs machine thread (futexRequeueAddr args) state (.error error) state := futexRequeueAddr_error ht
    refine iff_of_true ⟨⟨.error error, state, hrun⟩, fun result state' h => ?_⟩ ?_
    case refine_1 =>
      obtain ⟨rfl, rfl⟩ := hrun.unique h
      simp [Meets, ht]
    case refine_2 => simp [Sound, ht]
  case ok target =>
    obtain ⟨⟨addr, key⟩, addr2, key2⟩ := target
    obtain ⟨state', hrun, htasks, hqueue, hmemory⟩ := @futexRequeueAddr_ok _ _ thread _ _ _ _ _ _ hq ht
    constructor
    case mp =>
      intro hcorrect
      have hmeets := hcorrect.2 _ _ hrun
      simp only [Meets, ht] at hmeets
      obtain ⟨count, hcount, hrequeues⟩ := hmeets
      intro addr' key' addr2' key2' he
      rw [ht] at he
      cases he
      exact sound_of_requeues hq rfl hqueue (Except.ok.inj hcount).symm hrequeues
    case mpr =>
      intro hsound
      obtain ⟨hwake, hmove⟩ := hsound addr key addr2 key2 ht
      refine ⟨⟨_, _, hrun⟩, fun result state'' h => ?_⟩
      obtain ⟨rfl, rfl⟩ := hrun.unique h
      simp only [Meets, ht]
      exact ⟨_, rfl, requeues_of_sound rfl htasks hqueue hmemory hwake hmove⟩

theorem wakeOp_correct_iff (hq : state.FutexQuiet) (args : FutexWakeOp) :
    (wakeOp args).Correct thread state ↔ (wakeOp args).Sound state := by
  obtain ⟨error, he⟩ | ⟨arg, old, new, memory, hv, hv₂, ha, hr, hn, hw, he⟩ := args.operate_cases state.memory
  case inl =>
    refine iff_of_true ⟨⟨.error error, state, by simp [Runs, he]⟩, fun result state' h _ => ?_⟩ ?_
    case refine_1 =>
      simp only [Runs, he] at h
      obtain ⟨_, rfl⟩ := h
      exact ⟨rfl, rfl, rfl⟩
    case refine_2 =>
      intro arg old new memory hv hv₂ ha hr hn hc hw
      simp only [FutexWakeOp.operate, hv, hv₂, ha, hr, hn, hw, hc] at he
      exact congrArg Prod.fst he
  case inr =>
    cases hc : arg.compare old
    case none =>
      rw [hc] at he
      have hinvalid : args.Invalid := by
        intro arg' ha'
        obtain rfl := Option.some.inj (ha.symm.trans ha')
        refine .inr (Nat.not_le.mp fun hle => ?_)
        have hsome := (FutexOpArg.compare_isSome arg old).mpr hle
        simp [hc] at hsome
      constructor
      case mp =>
        intro hcorrect arg' old' new' memory' _ _ ha' hr' hn' _ hw'
        rw [ha] at ha'
        cases ha'
        rw [hr] at hr'
        cases hr'
        rw [hn] at hn'
        cases hn'
        rw [hw] at hw'
        cases hw'
        have hmeets := hcorrect.2 (.error .EINVAL) { state with memory } (by simp [Runs, he]) hinvalid
        exact hmeets.2.2
      case mpr =>
        intro hsound
        have hsame := hsound arg old new memory hv hv₂ ha hr hn hc hw
        refine ⟨⟨.error .EINVAL, { state with memory }, by simp [Runs, he]⟩, fun result state' h _ => ?_⟩
        simp only [Runs, he] at h
        obtain ⟨_, rfl⟩ := h
        exact ⟨rfl, rfl, hsame⟩
    case some cmpMatches =>
      rw [hc] at he
      have hq' : ({ state with memory } : WaitState τ).FutexQuiet := ⟨hq.unlocked, hq.once⟩
      obtain ⟨result, state', hrun⟩ := futexWakeOpWake_runs thread hq' args cmpMatches
      refine iff_of_true ⟨⟨result, state', by simpa [Runs, he] using hrun⟩, fun _ _ _ hinvalid => ?_⟩ ?_
      case refine_1 =>
        obtain hop | hcmp := hinvalid arg ha
        case inl => exact absurd (FutexOpArg.apply_isSome hn) (Nat.not_le.mpr hop)
        case inr =>
          have hle := (FutexOpArg.compare_isSome arg old).mp (by simp [hc])
          exact absurd hle (Nat.not_le.mpr hcmp)
      case refine_2 =>
        intro arg' old' new' memory' _ _ ha' hr' _ hc' _
        rw [ha] at ha'
        cases ha'
        rw [hr] at hr'
        cases hr'
        simp [hc] at hc'

theorem correct_iff (hq : state.FutexQuiet) (call : FutexCall) : call.Correct thread state ↔ call.Sound state := by
  cases call
  case wake uaddr key n bitset => exact iff_of_true (wake_correct hq uaddr key n bitset) trivial
  case requeue args => exact requeue_correct_iff hq args
  case wakeOp args => exact wakeOp_correct_iff hq args

end FutexCall

end WllOs
