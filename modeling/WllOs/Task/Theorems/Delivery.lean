import WllOs.Task.Delivery
import WllOs.Task.Theorems.Signal

namespace WllOs

open Function (update)

-- The signal that `handle_pending_for_task` has chosen and not taken yet.
def SignalPc.chosen? : SignalPc → Option Signum
  | chosen signum | clear signum _ | deliver signum _ => some signum
  | _                                                 => none

theorem pendingRecord_queued {pid : Nat} {signum : Signum} {info : PendingSignalInfo} {events : List SignalEvent} :
    (pendingRecord pid · (.queued pid signum info :: events)) =
      update (pendingRecord pid · events) signum (some info) := by
  funext signum'
  by_cases h : signum' = signum
  case pos => subst h; simp [pendingRecord]
  case neg => simp [pendingRecord, h, Ne.symm h]

theorem pendingRecord_ended {pid : Nat} {signum : Signum} {info : PendingSignalInfo} {how : SignalEnd}
    {events : List SignalEvent} : (pendingRecord pid · (.ended pid signum info how :: events)) =
      update (pendingRecord pid · events) signum none := by
  funext signum'
  by_cases h : signum' = signum
  case pos => subst h; simp [pendingRecord]
  case neg => simp [pendingRecord, h, Ne.symm h]

def SignalEvent.pid : SignalEvent → Nat
  | created pid | queued pid _ _ | ended pid _ _ _ => pid

theorem pendingRecord_other {pid : Nat} {signum : Signum} {event : SignalEvent} {events : List SignalEvent}
    (h : event.pid ≠ pid) : pendingRecord pid signum (event :: events) = pendingRecord pid signum events := by
  cases event <;> simp_all [pendingRecord, SignalEvent.pid]

def SendPc.signum? : SendPc → Option Signum
  | .idle | .posted _ => none
  | .action _ signum _ | .judgeStop _ signum _ _ | .judgeTerminate _ signum _ _ | .post _ signum _ => some signum

namespace SignalTask

variable {records : Signum → Option PendingSignalInfo} {task task' : SignalTask}

-- A signal that is chosen stays pending: other threads queue signals, and only the task itself takes them.
structure Inv (records : Signum → Option PendingSignalInfo) (task : SignalTask) : Prop where
  state : task.signalState.Agrees records
  hint : task.signalState.pending ≠ 0 → task.storing.getD task.signalPendingHint ≠ 0
  chosen : ∀ signum, task.pc.chosen? = some signum →
    validSignal signum ∧ task.signalState.pending &&& signalBit signum ≠ 0

theorem Inv.sound (h : task.Inv records) : task.Sound records where
  blocked := h.state.blocked
  hint := h.hint
  pending := h.state.pending
  unqueued := h.state.unqueued

theorem Inv.goto (h : task.Inv records) {pc : SignalPc} (hp : pc.chosen? = none) :
    Inv records { task with pc } where
  state := h.state
  hint := h.hint
  chosen _ hs := absurd (hp.symm.trans hs) nofun

theorem Inv.masks (h : task.Inv records) {state : SignalState} (hs : state.Agrees records)
    (hp : state.pending = task.signalState.pending) : Inv records { task with signalState := state } where
  state := hs
  hint := hp ▸ h.hint
  chosen signum hc := hp ▸ h.chosen signum hc

-- The end of a section that changes what is pending.
theorem Inv.store (h : task.Inv records) {hint : Nat} {pc : SignalPc} (hs : task.storing = some hint)
    (hp : pc.chosen? = none) : Inv records { task with signalPendingHint := hint, storing := none, pc } where
  state := h.state
  hint hn := by simpa [hs] using h.hint hn
  chosen _ hc := absurd (hp.symm.trans hc) nofun

-- A section that takes a signal.
theorem taken {state : SignalState} {pc : SignalPc} (hs : state.Agrees records) (hp : pc.chosen? = none) :
    Inv records { task with signalState := state, storing := some state.pendingHint, pc } where
  state := hs
  hint := SignalState.pendingHint_ne_zero
  chosen _ hc := absurd (hp.symm.trans hc) nofun

theorem created {state : SignalState} {signalActions : Nat} (hs : state.Agrees records) (hp : state.pending = 0) :
    Inv records ⟨state, 0, none, signalActions, .idle⟩ where
  state := hs
  hint h := absurd hp h
  chosen _ h := by cases h

end SignalTask

namespace SignalSystem

variable {σ : Type} {s s' : SignalSystem σ} {pid : Nat} {task task' : SignalTask} {event : SignalEvent}

-- Senders have checked their signals.
def Checked (s : SignalSystem σ) : Prop :=
  ∀ sender signum, (s.senders sender).signum? = some signum → validSignal signum

structure Inv (s : SignalSystem σ) : Prop where
  tasks : ∀ pid task, s.tasks pid = some task → task.Inv (pendingRecord pid · s.events)
  ended : ∀ later earlier pid signum info how, s.events = later ++ .ended pid signum info how :: earlier →
    pendingRecord pid signum earlier = some info
  checked : s.Checked

theorem Inv.sound (h : s.Inv) : s.Sound where
  tasks pid task ht := (h.tasks pid task ht).sound
  ended := h.ended

theorem Inv.setTask (h : s.Inv) (ht : task.Inv (pendingRecord pid · s.events)) : (s.setTask pid task).Inv where
  tasks other task' ho := by
    simp only [SignalSystem.setTask] at ho ⊢
    by_cases he : other = pid
    case pos =>
      subst he
      rw [Function.update_self, Option.some.injEq] at ho
      exact ho ▸ ht
    case neg =>
      rw [Function.update_of_ne he] at ho
      exact h.tasks other task' ho
  ended := h.ended
  checked := h.checked

-- A step of a task that is an event. The record of a signal that comes to its end is the one of the event.
theorem Inv.record (h : s.Inv) (event : SignalEvent) (ht : task.Inv (pendingRecord event.pid · (event :: s.events)))
    (he : ∀ signum info how, event = .ended event.pid signum info how →
      pendingRecord event.pid signum s.events = some info) : ((s.setTask event.pid task).record event).Inv where
  tasks other task' ho := by
    simp only [SignalSystem.record, SignalSystem.setTask] at ho ⊢
    by_cases hp : other = event.pid
    case pos =>
      subst hp
      rw [Function.update_self, Option.some.injEq] at ho
      exact ho ▸ ht
    case neg =>
      rw [Function.update_of_ne hp] at ho
      simpa only [pendingRecord_other (Ne.symm hp)] using h.tasks other task' ho
  ended later earlier pid signum info how hs := by
    simp only [SignalSystem.record, SignalSystem.setTask] at hs
    cases later
    case nil =>
      cases hs
      exact he signum info how rfl
    case cons => exact h.ended _ _ _ _ _ _ (List.cons.inj hs).right
  checked := h.checked

theorem Inv.congr (h : s.Inv) (ht : ∀ pid task, s'.tasks pid = some task → s.tasks pid = some task)
    (he : s'.events = s.events) (hc : s'.Checked) : s'.Inv where
  tasks pid task hp := he ▸ h.tasks pid task (ht pid task hp)
  ended := he ▸ h.ended
  checked := hc

-- The invariant is not about the actions.
theorem Inv.setActions (h : s.Inv) {actions : Nat → SignalActions} : Inv { s with actions } :=
  h.congr (fun _ _ h => h) rfl h.checked

theorem Inv.goto [DecidableEq σ] (h : s.Inv) {sender : σ} {pc : SendPc}
    (hp : ∀ signum, pc.signum? = some signum → validSignal signum) : (s.goto sender pc).Inv := by
  refine h.congr (fun _ _ h => h) rfl fun other signum hs => ?_
  simp only [SignalSystem.goto] at hs
  by_cases he : other = sender
  case pos => rw [he, Function.update_self] at hs; exact hp signum hs
  case neg => rw [Function.update_of_ne he] at hs; exact h.checked other signum hs

theorem Inv.create (h : s.Inv) {state : SignalState} {signalActions : Nat}
    (hs : state.Agrees fun _ => none) (hp : state.pending = 0) : (s.create pid state signalActions).Inv := by
  have ht : SignalTask.Inv (pendingRecord pid · (.created pid :: s.events)) ⟨state, 0, none, signalActions, .idle⟩ :=
    SignalTask.created (by simpa [pendingRecord] using hs) hp
  have hr := h.record (.created pid) ht nofun
  exact hr.congr (fun _ _ h => h) rfl hr.checked

theorem Inv.fork (h : s.Inv) {child : Nat} {shareSighand : Bool} : (s.fork task child shareSighand).Inv := by
  simp only [SignalSystem.fork]
  split
  case isTrue => exact h.create (SignalState.Agrees.forkFrom _) rfl
  case isFalse =>
    exact h.setActions.create (SignalState.Agrees.forkFrom _) rfl

theorem Inv.startCall (h : s.Inv) (hp : s.tasks pid = some task) {call : SignalCall}
    (hs : s.startCall pid task call = some s') : s'.Inv := by
  have ht := h.tasks pid task hp
  cases call
  case handlePending =>
    simp only [SignalSystem.startCall] at hs
    split at hs <;> cases hs
    case isTrue => exact h
    case isFalse => exact h.setTask (ht.goto rfl)
  case sigaction =>
    simp only [SignalSystem.startCall] at hs
    split at hs <;> cases hs
    case h_1 => exact h.setActions
    case h_2 => exact h
  case sigprocmask how set sigsetSize copied =>
    simp only [SignalSystem.startCall] at hs
    split at hs
    case isTrue => cases hs
    case isFalse =>
      split at hs <;> cases hs
      case h_1 state he =>
        cases SignalState.sigprocmask_ok he
        case inl he => subst he; exact h.setTask ht
        case inr he =>
          have ⟨mask, he⟩ := he
          subst he
          exact h.setTask (ht.masks (ht.state.sanitized mask) rfl)
      case h_2 => exact h
  case sigsuspend mask =>
    simp only [SignalSystem.startCall] at hs
    split at hs <;> cases hs
    have hm := ht.masks (ht.state.suspend mask) rfl
    exact h.setTask (hm.goto rfl)
  case sigtimedwait =>
    cases hs
    exact h.setTask (ht.goto rfl)
  case sigreturn frameSize frame =>
    simp only [SignalSystem.startCall] at hs
    split at hs
    case isTrue => cases hs
    case isFalse =>
      split at hs <;> cases hs
      case h_1 state he =>
        have ⟨mask, he⟩ := SignalState.sigreturn_ok he
        subst he
        exact h.setTask (ht.masks (ht.state.sanitized mask) rfl)
      case h_2 => exact h
  case fork =>
    simp only [SignalSystem.startCall] at hs
    split at hs <;> cases hs
    exact h.fork
  case execve =>
    cases hs
    exact h.setActions

theorem chosen_dispatch {signum signum' : Signum} {action : KernelSigAction}
    (h : (dispatch signum action).chosen? = some signum') : signum' = signum := by
  simp only [dispatch] at h
  split at h
  case isTrue => cases h; rfl
  case isFalse => split at h <;> cases h <;> rfl

-- A section of a task that ends a signal which is pending, with its record.
theorem Inv.take (h : s.Inv) (hp : s.tasks pid = some task) {signum : Signum} {how : SignalEnd} {state : SignalState}
    {pc : SignalPc} (hv : validSignal signum) (hm : task.signalState.pending &&& signalBit signum ≠ 0)
    (hs : state.Agrees (update (pendingRecord pid · s.events) signum none)) (hc : pc.chosen? = none) :
    ((s.setTask pid { task with signalState := state, storing := some state.pendingHint, pc }).record
      (.ended pid signum (task.signalState.pendingInfo signum) how)).Inv := by
  refine h.record (.ended pid signum (task.signalState.pendingInfo signum) how) ?_ fun signum' info how' he => ?_
  case refine_1 =>
    refine SignalTask.taken ?_ hc
    simp only [SignalEvent.pid]
    rwa [pendingRecord_ended]
  case refine_2 =>
    cases he
    exact (h.tasks pid task hp).state.of_pending hv hm

theorem Inv.runTask (h : s.Inv) (hp : s.tasks pid = some task) (hs : s.runTask pid task = some s') : s'.Inv := by
  have ht := h.tasks pid task hp
  simp only [SignalSystem.runTask] at hs
  split at hs
  -- `scan`
  case h_1 =>
    split at hs <;> cases hs
    case h_1 signum he =>
      have ⟨hv, hm⟩ := lowestSignal_some he
      refine h.setTask ⟨ht.state, ht.hint, fun _ hc => ?_⟩
      cases hc
      refine ⟨hv, fun hz => hm ?_⟩
      rw [BitVec.and_assoc, BitVec.and_comm (~~~_), ← BitVec.and_assoc, hz]
      exact BitVec.zero_and
    case h_2 => exact h.setTask (ht.goto rfl)
  -- `chosen`
  case h_2 signum hpc =>
    cases hs
    refine h.setTask ⟨ht.state, ht.hint, fun signum' hc => ?_⟩
    rw [chosen_dispatch hc]
    exact ht.chosen signum (by rw [hpc]; rfl)
  -- `clear`
  case h_3 signum ends hpc _ =>
    cases hs
    have ⟨hv, hm⟩ := ht.chosen signum (by rw [hpc]; rfl)
    exact h.take hp hv hm (ht.state.clearPending hv) rfl
  -- `cleared`
  case h_4 ends hint _ hl =>
    cases hs
    exact h.setTask (ht.store hl (by cases ends <;> rfl))
  -- `deliver`
  case h_5 signum action hpc _ =>
    cases hs
    have ⟨hv, hm⟩ := ht.chosen signum (by rw [hpc]; rfl)
    exact h.take hp hv hm (ht.state.deliver hv action) rfl
  -- `delivered`
  case h_6 hl =>
    cases hs
    exact h.setTask (ht.store hl rfl)
  -- `frame`
  case h_7 =>
    have hi : (s.setTask pid { task with pc := .idle }).Inv := h.setTask (ht.goto rfl)
    split at hs <;> cases hs
    case isTrue => exact hi.setActions
    case isFalse => exact hi
  -- `take`
  case h_8 mask _ _ =>
    split at hs <;> cases hs
    case h_1 signum info state he =>
      have ⟨_, hl, he⟩ := Option.map_eq_some_iff.mp he
      cases he
      have ⟨hv, hm⟩ := lowestSignal_some hl
      have hm : task.signalState.pending &&& signalBit signum ≠ 0 := by
        refine fun hz => hm ?_
        rw [BitVec.and_assoc, BitVec.and_comm mask, ← BitVec.and_assoc, hz]
        exact BitVec.zero_and
      exact h.take hp hv hm (ht.state.clearPending hv) rfl
    case h_2 => exact h.setTask (ht.goto rfl)
  -- `taken`
  case h_9 hl =>
    cases hs
    exact h.setTask (ht.store hl rfl)
  case h_10 => cases hs

theorem Inv.failSleep (h : s.Inv) (hp : s.tasks pid = some task) {err : SysErrNo}
    (hs : s.failSleep pid task err = some s') : s'.Inv := by
  have ht := h.tasks pid task hp
  unfold SignalSystem.failSleep at hs
  cases hpc : task.pc <;> rw [hpc] at hs
  case await => cases hs; exact h.setTask (ht.goto rfl)
  case suspended =>
    dsimp only at hs
    split at hs <;> cases hs
    have hm := ht.masks (ht.state.resume err) (SignalState.resume_pending err)
    exact h.setTask (hm.goto rfl)
  all_goals cases hs

theorem Inv.stepTask (h : s.Inv) (hp : s.tasks pid = some task) {act : SignalAct}
    (hs : s.stepTask pid task act = some s') : s'.Inv := by
  cases act
  case call =>
    simp only [SignalSystem.stepTask] at hs
    split at hs
    case isTrue => exact h.startCall hp hs
    case isFalse => cases hs
  case run => exact h.runTask hp hs
  case wake =>
    simp only [SignalSystem.stepTask] at hs
    split at hs <;> cases hs
    exact h.setTask ((h.tasks pid task hp).goto rfl)
  case fail => exact h.failSleep hp hs

theorem Inv.runSender [DecidableEq σ] (h : s.Inv) {sender : σ} {pc : SendPc}
    (hv : ∀ signum, pc.signum? = some signum → validSignal signum)
    (hs : s.runSender sender pc = some s') : s'.Inv := by
  cases pc
  case idle => cases hs
  case action =>
    have ⟨_, _, hs⟩ := Option.bind_eq_some_iff.mp hs
    cases hs
    exact h.goto hv
  case judgeStop =>
    have ⟨_, _, hs⟩ := Option.bind_eq_some_iff.mp hs
    split at hs
    case isTrue => cases hs
    case isFalse =>
      split at hs <;> cases hs
      case isTrue => exact h.goto nofun
      case isFalse => exact h.goto hv
  case judgeTerminate =>
    have ⟨_, _, hs⟩ := Option.bind_eq_some_iff.mp hs
    split at hs
    case isTrue => cases hs
    case isFalse =>
      split at hs
      case isTrue => cases hs; exact h.goto nofun
      case isFalse =>
        split at hs <;> cases hs
        case isTrue => exact h.goto nofun
        case isFalse => exact h.goto hv
  case post target signum info =>
    have ⟨task, ht, hs⟩ := Option.bind_eq_some_iff.mp hs
    split at hs <;> cases hs
    have hi := h.tasks target task ht
    have hv := hv signum rfl
    have hq : SignalTask.Inv (pendingRecord target · (.queued target signum info :: s.events))
        { task with signalState := task.signalState.queue signum info, storing := some 1 } := by
      refine ⟨?_, fun _ => Nat.one_ne_zero, fun signum' hc => ?_⟩
      case refine_1 =>
        rw [pendingRecord_queued]
        exact hi.state.queue hv
      case refine_2 =>
        have ⟨hv', hm⟩ := hi.chosen signum' hc
        exact ⟨hv', (mem_or_signalBit hv hv').mpr (.inl hm)⟩
    exact (h.record (.queued target signum info) hq nofun).goto nofun
  case posted target =>
    have ⟨task, ht, hs⟩ := Option.bind_eq_some_iff.mp hs
    have ⟨hint, hl, hs⟩ := Option.bind_eq_some_iff.mp hs
    cases hs
    have hi := h.tasks target task ht
    have hd : SignalTask.Inv (pendingRecord target · s.events)
        { task with signalPendingHint := hint, storing := none } :=
      ⟨hi.state, fun hn => by simpa [hl] using hi.hint hn, hi.chosen⟩
    exact (h.setTask hd).goto nofun

theorem initial_inv : (initial : SignalSystem σ).Inv where
  tasks _ _ ht := by cases ht
  ended later _ _ _ _ _ he := by cases later <;> cases he
  checked _ _ hs := by cases hs

theorem Reachable.inv [DecidableEq σ] (h : Reachable s) : s.Inv := by
  induction h
  case initial => exact initial_inv
  case spawn hi =>
    exact hi.setActions.create SignalState.Agrees.new rfl
  case exit pid _ hi =>
    refine hi.congr (fun other task ht => ?_) rfl hi.checked
    dsimp only at ht
    by_cases he : other = pid
    case pos => rw [he, Function.update_self] at ht; cases ht
    case neg => rwa [Function.update_of_ne he] at ht
  case task ht hs hi => exact hi.stepTask ht hs
  case send hv hi => exact hi.goto fun _ hs => by cases hs; exact hv
  case sender hs hi => exact hi.runSender (hi.checked _) hs

end SignalSystem

end WllOs
