import WllOs.Task.Flow

namespace WllOs

open Function (update)
open WaitInstr Protocol

instance : Inhabited TaskStatus := ⟨.ready⟩

instance : Inhabited SysErrNo := ⟨.EPERM⟩

variable {τ : Type} [DecidableEq τ] {protocol : WaitProtocol} {isKernel : τ → Bool} {self : τ} {pc pc' : Pc τ} {β : Type}

abbrev WaitEnabled (τ : Type) := WaitState τ → (τ → Pc τ) → τ → Option (Σ β, WaitInstr τ β) → Prop

-- Each instruction keeps the invariant.
def FlowKeeps (protocol : WaitProtocol) (isKernel : τ → Bool) (inv : WaitState τ → (τ → Pc τ) → Prop)
    (enabled : WaitEnabled τ) : Prop :=
  ∀ {β : Type} (thread : τ) (i : WaitInstr τ β) (b : β) (pc' : Pc τ) (state state' : WaitState τ) (pcs : τ → Pc τ),
    inv state pcs → enabled state pcs thread (some ⟨β, i⟩) → Flow protocol isKernel thread (pcs thread) i b pc' →
    machine.exec thread i state = some (b, state') → inv state' (update pcs thread pc')

def flowProtocol (inv : WaitState τ → (τ → Pc τ) → Prop) (enabled : WaitEnabled τ) :
    Protocol (machine (τ := τ)) (Pc τ) where
  inv     := inv
  fits    := Pc.Fits
  enabled := enabled

omit [DecidableEq τ] in
theorem Flow.fits {i : WaitInstr τ β} {b : β} (h : Flow protocol isKernel self pc i b pc') :
    pc.Fits (some ⟨β, i⟩) := by
  cases h
  case wait hw => cases hw <;> exact ⟨nofun, by simp [Pc.Heads]⟩
  case wake hw => cases hw <;> exact ⟨by simp, trivial⟩
  case free hidle hi => cases hi <;> exact ⟨by simp [hidle], trivial⟩
  case woke hm => exact ⟨nofun, hm⟩
  all_goals exact ⟨nofun, trivial⟩

omit [DecidableEq τ] in
-- A thread is at the start of a round of a loop.
theorem Pc.Fits.none (h : ∀ task, pc.wake ≠ .locked task .sawReason) : pc.Fits none :=
  ⟨fun task hp => absurd hp (h task), trivial⟩

section

variable {inv : WaitState τ → (τ → Pc τ) → Prop} {enabled : WaitEnabled τ}

theorem flow_wp (hk : FlowKeeps protocol isKernel inv enabled) [Inhabited β] {i : WaitInstr τ β}
    {post : β → Pc τ → Prop} (h : ∀ b, ∃ pc', Flow protocol isKernel self pc i b pc' ∧ post b pc') :
    (flowProtocol inv enabled).wp self (liftM i) post pc := by
  refine .instr ?_ fun state pcs b state' hinv hpc henabled hexec => ?_
  case refine_1 =>
    have ⟨_, hf, _⟩ := h default
    exact hf.fits
  case refine_2 =>
    have ⟨pc', hf, hp⟩ := h b
    exact ⟨pc', hk self i b pc' state state' pcs hinv henabled (hpc ▸ hf) hexec, hp⟩

-- The rules for the instructions of each kind.

variable (hk : FlowKeeps protocol isKernel inv enabled) {missed : Option (WaitList × WakeFilter)}
include hk

theorem wait_wp [Inhabited β] {wait : WaitPc} {i : WaitInstr τ β} {post : β → Pc τ → Prop}
    (h : ∀ b, ∃ wait', WaitFlow protocol isKernel self wait i b wait' ∧ post b ⟨wait', .idle, [], [], missed⟩) :
    (flowProtocol inv enabled).wp self (liftM i) post ⟨wait, .idle, [], [], missed⟩ :=
  flow_wp hk fun b =>
    have ⟨_, hf, hp⟩ := h b
    ⟨_, .wait hf, hp⟩

theorem wake_wp [Inhabited β] {wait : WaitPc} {wake : WakePc τ} {pending : List (τ × Nat)}
    {owed : List (WaitList × WakeFilter)} {i : WaitInstr τ β} {post : β → Pc τ → Prop}
    (h : ∀ b, ∃ wake', WakeFlow wake i b wake' ∧ post b ⟨wait, wake', pending, owed, missed⟩) :
    (flowProtocol inv enabled).wp self (liftM i) post ⟨wait, wake, pending, owed, missed⟩ :=
  flow_wp hk fun b =>
    have ⟨_, hf, hp⟩ := h b
    ⟨_, .wake hf, hp⟩

theorem free_wp [Inhabited β] {i : WaitInstr τ β} (hi : FreeInstr i) (hp : pc.wake = .idle)
    {post : β → Pc τ → Prop} (h : ∀ b, post b pc) : (flowProtocol inv enabled).wp self (liftM i) post pc :=
  flow_wp hk fun b => ⟨pc, .free hi hp, h b⟩

variable {wait : WaitPc} {pending : List (τ × Nat)} {owed : List (WaitList × WakeFilter)}

theorem makeReady_wp (task : τ) (outcome : WaitOutcome) :
    (flowProtocol inv enabled).wp self (makeReady task outcome) (fun _ pc => pc = ⟨wait, .idle, pending, owed, missed⟩)
      ⟨wait, .locked task .blocked, pending, owed, missed⟩ :=
  .bind <| wake_wp hk fun _ => ⟨_, .ready, .bind <| wake_wp hk fun _ => ⟨_, .clear, .bind <|
    wake_wp hk fun _ => ⟨_, .record, wake_wp hk fun _ => ⟨_, .unlock, rfl⟩⟩⟩⟩

-- The part of a wake that follows the comparison of tokens.
theorem wakeTaskTokenWith_wp (task : τ) (token : Nat) (outcome : WaitOutcome) (wait : WaitPc)
    (pending : List (τ × Nat)) (owed : List (WaitList × WakeFilter)) (missed : Option (WaitList × WakeFilter))
    (hc : ∀ b, ∃ pc', Flow protocol isKernel self pc (compareToken task token) b pc' ∧
      pc' = if b then ⟨wait, .accepted task token, pending, owed, missed⟩ else ⟨wait, .idle, pending, owed, missed⟩) :
    (flowProtocol inv enabled).wp self (wakeTaskTokenWith task token outcome)
      (fun _ pc => pc = ⟨wait, .idle, pending, owed, missed⟩) pc := by
  refine .bind (flow_wp hk fun same => ?_)
  have ⟨pc', hf, he⟩ := hc same
  refine ⟨pc', hf, ?_⟩
  subst he
  cases same
  case false => exact rfl
  case true =>
    refine .bind (wake_wp hk fun status => ?_)
    by_cases hs : status = .blocked
    case pos =>
      subst hs
      exact ⟨_, .lockBlocked, .bind (makeReady_wp hk task outcome)⟩
    case neg =>
      refine ⟨_, .lockOther hs, ?_⟩
      simp only [hs, ne_eq, not_false_eq_true, if_true]
      refine .bind (wake_wp hk fun reason => ?_)
      cases reason
      case none => exact ⟨_, .sawNone, .bind <| wake_wp hk fun _ => ⟨_, .unlock, rfl⟩⟩
      case some =>
        exact ⟨_, .sawReason, .bind <| wake_wp hk fun _ => ⟨_, .recordEarly, .bind <| wake_wp hk fun _ =>
          ⟨_, .unlock, rfl⟩⟩⟩

theorem markBlockedTaskReady_wp (task : τ) (outcome : WaitOutcome) :
    (flowProtocol inv enabled).wp self (markBlockedTaskReady task outcome)
      (fun _ pc => pc = ⟨wait, .idle, pending, owed, missed⟩) ⟨wait, .idle, pending, owed, missed⟩ := by
  refine .bind (wake_wp hk fun status => ?_)
  by_cases hs : status = .blocked
  case pos =>
    subst hs
    exact ⟨_, .interruptBlocked, .bind (makeReady_wp hk task outcome)⟩
  case neg =>
    refine ⟨_, .interruptOther hs, ?_⟩
    simp only [hs, ne_eq, not_false_eq_true, if_true]
    exact .bind <| wake_wp hk fun _ => ⟨_, .unlock, rfl⟩

-- Whether a wake has stopped because of its limit, or because its last scan has found nothing. In the latter case, it
-- is not owed any more.
def AfterWake (wait : WaitPc) (owed : List (WaitList × WakeFilter)) (list : WaitList) (limit : Option Nat)
    (filter : WakeFilter) (count : Nat) (pc : Pc τ) : Prop :=
  pc = ⟨wait, .idle, [], owed.erase (list, filter), some (list, filter)⟩ ∨
  ∃ missed n, limit = some n ∧ n ≤ count ∧ pc = ⟨wait, .idle, [], owed, missed⟩

theorem wakeMatching_wp (list : WaitList) (limit : Option Nat) (filter : WakeFilter) :
    (flowProtocol inv enabled).wp self (wakeMatching list limit filter) (AfterWake wait owed list limit filter)
      ⟨wait, .idle, [], owed, missed⟩ := by
  refine .loop (fun _ pc => ∃ missed, pc = ⟨wait, .idle, [], owed, missed⟩) ⟨missed, rfl⟩ (fun _ _ h => ?_)
    fun woke pc h => ?_
  case refine_1 =>
    obtain ⟨missed, rfl⟩ := h
    exact .none nofun
  case refine_2 =>
    obtain ⟨missed, rfl⟩ := h
    by_cases hl : limit.any (· ≤ woke)
    case pos =>
      simp only [hl, if_true]
      cases limit
      case none => cases hl
      case some n => exact .inr ⟨missed, n, rfl, by simpa using hl, rfl⟩
    case neg =>
      simp only [hl]
      refine .bind (flow_wp hk fun entry => ?_)
      cases entry
      case none => exact ⟨_, .takeNone, .inl rfl⟩
      case some entry =>
        refine ⟨_, .takeSome, .bind ((wakeTaskTokenWith_wp hk _ _ _ wait [] owed none fun b => ?_).mono
          fun woken pc he => ?_)⟩
        case refine_1 =>
          cases b
          case false => exact ⟨_, .wake .stale, rfl⟩
          case true => exact ⟨_, .wake .accept, rfl⟩
        case refine_2 =>
          subst he
          cases woken <;> exact ⟨_, rfl⟩

theorem wakeTasks_wp (outcome : WaitOutcome) (pending : List (τ × Nat)) :
    (flowProtocol inv enabled).wp self (wakeTasks outcome pending)
      (fun _ pc => pc = ⟨wait, .idle, [], owed, missed⟩) ⟨wait, .idle, pending, owed, missed⟩ := by
  induction pending
  case nil => exact rfl
  case cons head pending hi =>
    refine .bind ((wakeTaskTokenWith_wp hk _ _ _ wait pending owed missed fun b => ?_).mono fun _ pc he => ?_)
    case refine_1 =>
      cases b
      case false => exact ⟨_, .stalePending, rfl⟩
      case true => exact ⟨_, .acceptPending, rfl⟩
    case refine_2 =>
      subst he
      exact .bind (hi.mono fun _ _ he => he)

theorem wakeExpiredTimers_wp :
    (flowProtocol inv enabled).wp self wakeExpiredTimers (fun _ pc => pc = ⟨wait, .idle, [], owed, missed⟩)
      ⟨wait, .idle, [], owed, missed⟩ :=
  .bind <| free_wp hk .getTimeUs rfl fun _ => .bind <| flow_wp hk fun _ =>
    ⟨_, .expire, .bind ((wakeTasks_wp hk .timedOut _).mono fun _ _ he => he)⟩

-- A thread that is between its calls.
def Pc.Idle (pc : Pc τ) : Prop :=
  ∃ restarting missed, pc = ⟨.out restarting, .idle, [], [], missed⟩

theorem awaitWakeup_wp (wait : Wait) :
    (flowProtocol inv enabled).wp self (awaitWakeup self) (fun _ pc => pc = ⟨.awake wait false, .idle, [], [], missed⟩)
      ⟨.waiting wait, .idle, [], [], missed⟩ := by
  refine .loop (fun _ pc => pc = ⟨.waiting wait, .idle, [], [], missed⟩) rfl (fun _ _ h => ?_) fun _ pc h => ?_
  case refine_1 =>
    subst h
    exact .none nofun
  case refine_2 =>
    subst h
    refine .bind (flow_wp hk fun status => ?_)
    by_cases hs : status = .blocked
    case pos =>
      subst hs
      refine ⟨_, .free (.status self) rfl, ?_⟩
      exact .bind ((wakeExpiredTimers_wp hk).mono fun _ _ he => he)
    case neg =>
      refine ⟨_, .wait (.wakeup hs), ?_⟩
      simp only [hs, ne_eq, not_false_eq_true, if_true]
      exact rfl

-- A kernel task is scheduled again.
theorem dispatch_wp {pc : WaitPc} (pc' : WaitPc)
    (hf : ∀ ready, WaitFlow protocol isKernel self pc (setStatusIf self .ready .running) ready
      (if ready then pc' else pc)) {next : WaitPc}
    (hr : WaitFlow protocol isKernel self pc' (setCurrent self true) () next) :
    (flowProtocol inv enabled).wp self (dispatch self) (fun _ pc => pc = ⟨next, .idle, [], [], missed⟩)
      ⟨pc, .idle, [], [], missed⟩ := by
  refine .loop (fun _ value => value = ⟨pc, .idle, [], [], missed⟩) rfl (fun _ _ h => ?_) fun _ value h => ?_
  case refine_1 =>
    subst h
    exact .none nofun
  case refine_2 =>
    subst h
    refine .bind (wait_wp hk fun ready => ⟨_, hf ready, ?_⟩)
    cases ready
    case false => exact rfl
    case true => exact .bind <| wait_wp hk fun _ => ⟨_, hr, rfl⟩

-- Where a task is after it has been blocked, depending on whether the call has been parked.
def AfterBlock (wait : Wait) : Bool → Pc τ → Prop
  | true,  pc => wait.deadlineUs = none ∧ ∃ missed, pc = ⟨.waiting wait, .idle, [], [], missed⟩
  | false, pc => ∃ missed, pc = ⟨.awake wait true, .idle, [], [], missed⟩

-- The task takes back its processor.
theorem blockedAgain_wp (wait : Wait) :
    (flowProtocol inv enabled).wp self (do
        if ← setStatusIf self .ready .running then
          storeReason self none
        if (← status self) ≠ .zombie then
          setCurrent self true
        return false : WaitM τ Bool)
      (AfterBlock wait) ⟨.awake wait false, .idle, [], [], missed⟩ := by
  have hrest : (flowProtocol inv enabled).wp self (do
        if (← status self) ≠ .zombie then
          setCurrent self true
        return false : WaitM τ Bool) (AfterBlock wait) ⟨.awake wait false, .idle, [], [], missed⟩ := by
    refine .bind <| flow_wp hk fun status => ?_
    by_cases hs : status = .zombie
    case pos =>
      subst hs
      exact ⟨_, .wait .zombie, _, rfl⟩
    case neg =>
      refine ⟨_, .free (.status self) rfl, ?_⟩
      simp only [hs, ne_eq, not_false_eq_true, if_true]
      exact .bind <| wait_wp hk fun _ => ⟨_, .current, _, rfl⟩
  refine .bind <| wait_wp hk fun ready => ⟨_, .runAwake, ?_⟩
  cases ready
  case false => exact hrest
  case true => exact .bind <| wait_wp hk fun _ => ⟨_, .reasonAwake, hrest⟩

theorem blockCurrentAndRunNext_wp (wait : Wait) (foreground : Bool) :
    (flowProtocol inv enabled).wp self (blockCurrentAndRunNext self ⟨isKernel self, foreground⟩ wait.deadlineUs)
      (AfterBlock wait) ⟨.blocking wait, .idle, [], [], missed⟩ := by
  simp only [blockCurrentAndRunNext]
  split
  case isTrue hkernel =>
    refine .bind <| wait_wp hk fun _ => ⟨_, .blockKernel hkernel, .bind <| wait_wp hk fun _ => ⟨_, .switchKernel, ?_⟩⟩
    refine .bind ((dispatch_wp hk (.awake wait false) (fun ready => ?_) .current).mono fun _ _ he => ⟨_, he⟩)
    cases ready
    case false => exact .notReadyKernel
    case true => exact .dispatchKernel
  case isFalse =>
    refine .bind <| wait_wp hk fun published => ?_
    cases published
    case false => exact ⟨_, .notRunning, _, rfl⟩
    case true =>
      refine ⟨_, .publish, .bind <| wait_wp hk fun outcome => ?_⟩
      cases outcome
      case some =>
        refine ⟨_, .recheckSome, .bind <| wait_wp hk fun blocked => ⟨_, .unpublish, ?_⟩⟩
        cases blocked
        case true => exact ⟨_, rfl⟩
        case false => exact .bind <| wait_wp hk fun _ => ⟨_, .runAwake, _, rfl⟩
      case none =>
        refine ⟨_, .recheckNone, .bind <| wait_wp hk fun _ => ⟨_, .switch, ?_⟩⟩
        simp only [Bool.and_eq_true, Option.isNone_iff_eq_none]
        split
        case isTrue hparked => exact ⟨hparked.2, _, rfl⟩
        case isFalse =>
          refine .bind ((awaitWakeup_wp hk wait).mono fun _ pc he => ?_)
          subst he
          exact blockedAgain_wp hk wait

theorem blockCurrentForReasonUntil_wp (wait : Wait) (foreground : Bool) (reason : BlockReason) :
    (flowProtocol inv enabled).wp self
      (blockCurrentForReasonUntil self ⟨isKernel self, foreground⟩ reason wait.deadlineUs)
      (AfterBlock wait) ⟨.evaluated wait, .idle, [], [], missed⟩ := by
  refine .bind <| wait_wp hk fun outcome => ?_
  cases outcome
  case some => exact ⟨_, .early, _, rfl⟩
  case none =>
    exact ⟨_, .check, .bind <| wait_wp hk fun _ => ⟨_, .reasonAgain, blockCurrentAndRunNext_wp hk wait foreground⟩⟩

theorem finishWait_wp (list : WaitList) (token : Nat) {pc : WaitPc} (stillWaiting : Bool) (deadlineUs : Option Nat)
    (hf : ∀ outcome, WaitFlow protocol isKernel self pc (takeOutcome self) outcome (.done list token outcome)) :
    (flowProtocol inv enabled).wp self (finishWait self stillWaiting deadlineUs)
      (fun outcome pc => ∃ taken, (∀ other, taken = some other → outcome = other) ∧
        pc = ⟨.done list token taken, .idle, [], [], missed⟩) ⟨pc, .idle, [], [], missed⟩ := by
  refine .bind <| wait_wp hk fun outcome => ⟨_, hf outcome, ?_⟩
  cases outcome
  case some outcome => exact ⟨some outcome, fun _ => Option.some.inj, rfl⟩
  case none =>
    refine .bind <| free_wp hk (.hasUnblockedPending self) rfl fun pending => ?_
    cases pending
    case true => exact ⟨none, nofun, rfl⟩
    case false =>
      cases stillWaiting
      case false => exact ⟨none, nofun, rfl⟩
      case true =>
        cases deadlineUs
        case none => exact ⟨none, nofun, rfl⟩
        case some deadline =>
          refine .bind <| free_wp hk .getTimeUs rfl fun now => ?_
          by_cases hexpired : now ≥ deadline
          case pos =>
            simp only [hexpired, if_true]
            exact ⟨none, nofun, rfl⟩
          case neg =>
            simp only [hexpired, if_false]
            exact ⟨none, nofun, rfl⟩

-- Where a task is after a call that may have been parked.
def AfterCall (result : Option (Except SysErrNo WaitValue)) (pc : Pc τ) : Prop :=
  match result with
  | some _ => ∃ missed, pc = ⟨.out false, .idle, [], [], missed⟩
  | none   => ∃ wait missed, wait.deadlineUs = none ∧ pc = ⟨.waiting wait, .idle, [], [], missed⟩

theorem leave_wp {list : WaitList} {token : Nat} {outcome : Option WaitOutcome} {result : Except SysErrNo WaitValue}
    (hr : list = .futex → outcome = some .woken → result = .ok .zero) :
    (flowProtocol inv enabled).wp self (leave self list (some token) result) AfterCall
      ⟨.done list token outcome, .idle, [], [], missed⟩ :=
  .bind <| wait_wp hk fun _ => ⟨_, .returned hr, _, rfl⟩

theorem leaveEarly_wp (list : WaitList) (result : Except SysErrNo WaitValue) :
    (flowProtocol inv enabled).wp self (leave self list none result) AfterCall
      ⟨.entered list, .idle, [], [], missed⟩ :=
  .bind <| wait_wp hk fun _ => ⟨_, .returnedEarly, _, rfl⟩

-- The part of a call that follows its wait, once the entries are removed.
theorem removed_wp (wait : Wait) (stillWaiting : Bool) {result : WaitOutcome → Except SysErrNo WaitValue}
    (hr : wait.list = .futex → result .woken = .ok .zero) :
    (flowProtocol inv enabled).wp self (do
        if wait.deadlineUs.isSome then
          let _ ← removeTimeout self wait.token
        let outcome ← finishWait self stillWaiting wait.deadlineUs
        leave self wait.list (some wait.token) (result outcome) : WaitM τ _)
      AfterCall ⟨.removed wait, .idle, [], [], missed⟩ := by
  have hfinish {pc : WaitPc} (hf : ∀ outcome,
      WaitFlow protocol isKernel self pc (takeOutcome self) outcome (.done wait.list wait.token outcome)) :
      (flowProtocol inv enabled).wp self (do
        let outcome ← finishWait self stillWaiting wait.deadlineUs
        leave self wait.list (some wait.token) (result outcome) : WaitM τ _)
        AfterCall ⟨pc, .idle, [], [], missed⟩ :=
    .bind ((finishWait_wp hk wait.list wait.token stillWaiting wait.deadlineUs hf).mono fun outcome pc he => by
      obtain ⟨taken, ho, rfl⟩ := he
      refine leave_wp hk fun hl hw => ?_
      rw [ho _ hw]
      exact hr hl)
  by_cases hd : wait.deadlineUs.isSome
  case pos =>
    simp only [hd, if_true]
    exact .bind <| .bind <| wait_wp hk fun _ => ⟨_, .removeTimeout, hfinish fun _ => .finishTimeless⟩
  case neg =>
    simp only [hd]
    exact hfinish fun _ => .finish (by simpa using hd)

-- The part of a call that follows the registration of its wait, for both kinds of waits.
theorem registered_wp (wait : Wait) (foreground : Bool) (reason : BlockReason)
    {failed : SysErrNo → WaitM τ (Option (Except SysErrNo WaitValue))}
    {changed interrupted : WaitM τ (Option (Except SysErrNo WaitValue))}
    {result : WaitOutcome → Except SysErrNo WaitValue} (hr : wait.list = .futex → result .woken = .ok .zero)
    (hf : ∀ error, (flowProtocol inv enabled).wp self (failed error) AfterCall
      ⟨.withdrawing wait, .idle, [], [], missed⟩)
    (hc : (flowProtocol inv enabled).wp self changed AfterCall ⟨.withdrawing wait, .idle, [], [], missed⟩)
    (hi : (flowProtocol inv enabled).wp self interrupted AfterCall ⟨.withdrawing wait, .idle, [], [], missed⟩) :
    (flowProtocol inv enabled).wp self (do
        match ← (shouldSleep wait.condition : WaitInstr τ _) with
        | .error error => failed error
        | .ok false    => changed
        | .ok true =>
          if ← hasUnblockedPending self then
            interrupted
          else
            if let some deadline := wait.deadlineUs then
              addTimeout deadline self wait.token
            if ← blockCurrentForReasonUntil self ⟨isKernel self, foreground⟩ reason wait.deadlineUs then
              return none
            else
              storeReason self none
              let stillWaiting ← removeWaiters wait.list self wait.token
              if wait.deadlineUs.isSome then
                let _ ← removeTimeout self wait.token
              let outcome ← finishWait self stillWaiting wait.deadlineUs
              leave self wait.list (some wait.token) (result outcome) : WaitM τ _) AfterCall
      ⟨.registered wait, .idle, [], [], missed⟩ := by
  have hblock : (flowProtocol inv enabled).wp self (do
      if ← blockCurrentForReasonUntil self ⟨isKernel self, foreground⟩ reason wait.deadlineUs then
        return none
      else
        storeReason self none
        let stillWaiting ← removeWaiters wait.list self wait.token
        if wait.deadlineUs.isSome then
          let _ ← removeTimeout self wait.token
        let outcome ← finishWait self stillWaiting wait.deadlineUs
        leave self wait.list (some wait.token) (result outcome) : WaitM τ _) AfterCall
      ⟨.evaluated wait, .idle, [], [], missed⟩ := by
    refine .bind ((blockCurrentForReasonUntil_wp hk wait foreground reason).mono fun parked pc he => ?_)
    cases parked
    case true =>
      have ⟨hd, missed, hpc⟩ := he
      exact ⟨wait, missed, hd, hpc⟩
    case false =>
      obtain ⟨missed, rfl⟩ := he
      exact .bind <| wait_wp hk fun _ => ⟨_, .leave, .bind <| wait_wp hk fun stillWaiting => ⟨_, .remove,
        removed_wp hk wait stillWaiting hr⟩⟩
  refine .bind <| wait_wp hk fun condition => ?_
  cases condition
  case error error => exact ⟨_, .reject nofun, hf error⟩
  case ok sleep =>
    cases sleep
    case false => exact ⟨_, .reject nofun, hc⟩
    case true =>
      refine ⟨_, .evaluate, .bind <| flow_wp hk fun pending => ?_⟩
      cases pending
      case true => exact ⟨_, .wait .interrupt, hi⟩
      case false =>
        refine ⟨_, .free (.hasUnblockedPending self) rfl, ?_⟩
        cases hd : wait.deadlineUs
        case none =>
          simp only [hd] at hblock
          exact hblock
        case some deadline =>
          simp only [hd] at hblock
          exact .bind <| wait_wp hk fun _ => ⟨_, .timeout hd, hblock⟩

theorem withdraw_wp (wait : Wait) (hl : wait.list ≠ .futex) (result : Except SysErrNo WaitValue) :
    (flowProtocol inv enabled).wp self (withdraw self wait.list wait.token result) AfterCall
      ⟨.withdrawing wait, .idle, [], [], missed⟩ :=
  .bind <| wait_wp hk fun _ => ⟨_, .withdraw, .bind <| wait_wp hk fun _ => ⟨_, .abandon hl,
    leave_wp hk fun hl' => absurd hl' hl⟩⟩

theorem sleepRegistered_wp (wait : Wait) (hl : wait.list ≠ .futex) (foreground : Bool) (reason : BlockReason) :
    (flowProtocol inv enabled).wp self (sleepRegistered self ⟨isKernel self, foreground⟩ reason wait) AfterCall
      ⟨.registered wait, .idle, [], [], missed⟩ :=
  registered_wp hk wait foreground reason (fun hl' => absurd hl' hl) (fun error => withdraw_wp hk wait hl (.error error))
    (withdraw_wp hk wait hl (.ok (.outcome .woken))) (withdraw_wp hk wait hl (.error .EINTR))

-- The part of a call that registers its wait.
theorem register_wp (list : WaitList) (keys : List EntryKey) (deadlineUs : Option Nat) (reason : BlockReason)
    (condition : Memory → Except SysErrNo Bool) (hw : (list = .futex ∧ ∃ key, keys = [key]) ∨ (list ≠ .futex ∧ protocol.waits list keys condition))
    {rest : Wait → WaitM τ (Option (Except SysErrNo WaitValue))}
    (hr : ∀ token, (flowProtocol inv enabled).wp self (rest ⟨list, token, keys, deadlineUs, condition⟩) AfterCall
      ⟨.registered ⟨list, token, keys, deadlineUs, condition⟩, .idle, [], [], missed⟩) :
    (flowProtocol inv enabled).wp self (do
        removeTaskWaiters list self
        removeTaskTimeouts self
        let token ← nextWaitToken self
        clearOutcome self
        storeReason self (some reason)
        pushWaiters self ⟨list, token, keys, deadlineUs, condition⟩
        rest ⟨list, token, keys, deadlineUs, condition⟩ : WaitM τ _) AfterCall
      ⟨.entered list, .idle, [], [], missed⟩ := by
  refine .bind <| wait_wp hk fun _ => ⟨_, .removeOld, .bind <| wait_wp hk fun _ => ⟨_, .removeOldTimeouts, ?_⟩⟩
  refine .bind <| wait_wp hk fun token => ⟨_, .count, .bind <| wait_wp hk fun _ => ⟨_, .clear, ?_⟩⟩
  exact .bind <| wait_wp hk fun _ => ⟨_, .reason, .bind <| wait_wp hk fun _ =>
    ⟨_, .register ⟨list, token, keys, deadlineUs, condition⟩ hw, hr token⟩⟩

-- A deadline is checked before a wait is registered.
theorem deadlineExpired_wp (deadlineUs : Option Nat) (hp : pc.wake = .idle) :
    (flowProtocol inv enabled).wp self (deadlineExpired deadlineUs) (fun _ value => value = pc) pc := by
  cases deadlineUs
  case none => exact rfl
  case some => exact .bind <| free_wp hk .getTimeUs hp fun _ => rfl

theorem sleepUntilKeysIfWithReason_wp {restarting : Bool} (foreground : Bool) (list : WaitList) (keys : List WaitKey)
    (deadlineUs : Option Nat) (reason : BlockReason) (condition : Memory → Except SysErrNo Bool)
    (hw : protocol.waits list (entryKeys keys) condition) (hl : list ≠ .futex) :
    (flowProtocol inv enabled).wp self
      (sleepUntilKeysIfWithReason self ⟨isKernel self, foreground⟩ list keys deadlineUs reason condition)
      AfterCall ⟨.out restarting, .idle, [], [], missed⟩ := by
  refine .bind <| wait_wp hk fun outcome => ?_
  cases outcome
  case some outcome =>
    exact ⟨_, .resume list, .bind <| wait_wp hk fun _ => ⟨_, .token, .bind <| wait_wp hk fun _ => ⟨_, .resumedRemove,
      .bind <| wait_wp hk fun _ => ⟨_, .resumedTimeout, .bind <| wait_wp hk fun _ => ⟨_, .resumedReason,
        leave_wp hk fun hl' => absurd hl' hl⟩⟩⟩⟩⟩
  case none =>
    refine ⟨_, .enter list, .bind ((deadlineExpired_wp hk deadlineUs rfl).mono fun expired pc he => ?_)⟩
    subst he
    cases expired
    case true => exact leaveEarly_wp hk list (.ok (.outcome .timedOut))
    case false =>
      exact register_wp hk list (entryKeys keys) deadlineUs reason condition (.inr ⟨hl, hw⟩) fun token =>
        sleepRegistered_wp hk _ hl foreground reason

theorem withdrawFutex_wp (wait : Wait) (hl : wait.list = .futex) (error : SysErrNo) :
    (flowProtocol inv enabled).wp self (withdrawFutex self wait.token error) AfterCall
      ⟨.withdrawing wait, .idle, [], [], missed⟩ := by
  refine .bind <| wait_wp hk fun _ => ⟨.withdrawn wait, hl ▸ .withdraw, .bind <| wait_wp hk fun _ =>
    ⟨_, .abandonFutex hl, .bind <| wait_wp hk fun _ => ⟨_, .clearAbandoned, ?_⟩⟩⟩
  rw [hl]
  exact leave_wp hk nofun

theorem futexRegistered_wp (token : Nat) (keys : List EntryKey) (deadlineUs : Option Nat)
    (condition : Memory → Except SysErrNo Bool) (foreground : Bool) :
    (flowProtocol inv enabled).wp self
      (futexRegistered self ⟨isKernel self, foreground⟩ ⟨.futex, token, keys, deadlineUs, condition⟩) AfterCall
      ⟨.registered ⟨.futex, token, keys, deadlineUs, condition⟩, .idle, [], [], missed⟩ :=
  registered_wp hk ⟨.futex, token, keys, deadlineUs, condition⟩ foreground .futex (fun _ => rfl)
    (fun error => withdrawFutex_wp hk _ rfl error) (withdrawFutex_wp hk _ rfl .EAGAIN) (withdrawFutex_wp hk _ rfl .EINTR)

theorem futexWaitAddr_wp {restarting : Bool} (foreground : Bool) (futex : FutexWait) :
    (flowProtocol inv enabled).wp self (futexWaitAddr self ⟨isKernel self, foreground⟩ futex)
      AfterCall ⟨.out restarting, .idle, [], [], missed⟩ := by
  refine .bind <| wait_wp hk fun outcome => ?_
  cases outcome
  case some outcome =>
    refine ⟨_, .resume .futex, .bind <| wait_wp hk fun _ => ⟨_, .token, .bind <| wait_wp hk fun _ =>
      ⟨_, .resumedReasonFirst, .bind <| wait_wp hk fun _ => ⟨_, .resumedRemove, .bind <| wait_wp hk fun _ =>
        ⟨_, .resumedTimeout, leave_wp hk fun _ ho => ?_⟩⟩⟩⟩⟩
    cases ho
    exact rfl
  case none =>
    refine ⟨_, .enter .futex, ?_⟩
    dsimp only
    split
    case isTrue => exact leaveEarly_wp hk .futex (.error .EINVAL)
    case isFalse =>
      cases futex.valid
      case error error => exact leaveEarly_wp hk .futex (.error error)
      case ok =>
        refine .bind <| free_wp hk (.shouldSleep futex.condition) rfl fun result => ?_
        cases result
        case error error => exact leaveEarly_wp hk .futex (.error error)
        case ok same =>
          cases same
          case false => exact leaveEarly_wp hk .futex (.error .EAGAIN)
          case true =>
            refine .bind ((deadlineExpired_wp hk futex.deadlineUs rfl).mono fun expired pc he => ?_)
            subst he
            cases expired
            case true => exact leaveEarly_wp hk .futex (.error .ETIMEDOUT)
            case false =>
              cases futex.addrKey
              case error error => exact leaveEarly_wp hk .futex (.error error)
              case ok addrKey =>
                exact register_wp hk .futex [.futex addrKey.1 addrKey.2 futex.bitset] futex.deadlineUs .futex
                  futex.condition (.inl ⟨rfl, _, rfl⟩) fun token => futexRegistered_wp hk token _ _ _ foreground

theorem syscall_wp {restarting : Bool} {call : WaitM τ (Option (Except SysErrNo WaitValue))}
    (hc : (flowProtocol inv enabled).wp self call AfterCall ⟨.out restarting, .idle, [], [], missed⟩) :
    (flowProtocol inv enabled).wp self (syscall self call) (fun _ pc => pc.Idle)
      ⟨.out restarting, .idle, [], [], missed⟩ := by
  refine .bind (hc.mono fun result pc he => ?_)
  cases result
  case some =>
    have ⟨missed, hpc⟩ := he
    exact ⟨false, missed, hpc⟩
  case none =>
    obtain ⟨wait, missed, hd, rfl⟩ := he
    refine (dispatch_wp hk .dispatched (fun ready => ?_) .run).mono fun _ pc he => ⟨true, missed, he⟩
    cases ready
    case false => exact .notReady
    case true => exact .restart hd

theorem futexWakeAddrKey_wp (uaddr key n : Nat) (bitset : BitVec 64) :
    (flowProtocol inv enabled).wp self (futexWakeAddrKey uaddr key n bitset)
      (fun _ pc => ∃ missed, pc = ⟨wait, .idle, [], [], missed⟩) ⟨wait, .idle, [], [], missed⟩ := by
  simp only [futexWakeAddrKey]
  split
  case isTrue => exact ⟨missed, rfl⟩
  case isFalse =>
    refine .bind ((wakeMatching_wp hk .futex (some n) (.futex uaddr key bitset)).mono fun count pc he => ?_)
    obtain rfl | ⟨missed, limit, hn, hle, rfl⟩ := he
    case inl => exact .bind <| flow_wp hk fun _ => ⟨_, .woke fun _ => rfl, _, rfl⟩
    case inr =>
      cases hn
      exact .bind <| flow_wp hk fun _ => ⟨_, .woke fun hlt => absurd hlt (Nat.not_lt.mpr hle), _, rfl⟩

theorem futexRequeueAddr_wp (args : FutexRequeue) :
    (flowProtocol inv enabled).wp self (futexRequeueAddr args) (fun _ pc => pc = ⟨wait, .idle, [], [], missed⟩)
      ⟨wait, .idle, [], [], missed⟩ := by
  simp only [futexRequeueAddr]
  cases args.valid
  case error => exact rfl
  case ok =>
    refine .bind <| free_wp hk (.shouldSleep args.mayRequeue) rfl fun result => ?_
    cases result
    case error => exact rfl
    case ok same =>
      cases same
      case false => exact rfl
      case true =>
        cases args.addrKey
        case error => exact rfl
        case ok addrKey =>
          cases args.addrKey2
          case error => exact rfl
          case ok addrKey2 =>
            exact .bind <| flow_wp hk fun result => ⟨_, .requeue, .bind ((wakeTasks_wp hk .woken _).mono fun _ _ he => he)⟩

theorem wakeLists_wp (wakes : List (WaitList × WakeFilter)) :
    (flowProtocol inv enabled).wp self (notify.wakeLists wakes)
      (fun _ pc => ∃ missed, pc = ⟨wait, .idle, [], [], missed⟩) ⟨wait, .idle, [], wakes, missed⟩ := by
  induction wakes generalizing missed
  case nil => exact ⟨missed, rfl⟩
  case cons wake wakes hi =>
    refine .bind ((wakeMatching_wp hk wake.1 none wake.2).mono fun _ pc he => ?_)
    obtain rfl | ⟨_, _, hn, _⟩ := he
    case inl =>
      simp only [List.erase_cons_head]
      exact hi
    case inr => cases hn

theorem notify_wp (f : Memory → Memory) (wakes : List (WaitList × WakeFilter)) (hc : protocol.changes f wakes) :
    (flowProtocol inv enabled).wp self (notify f wakes) (fun _ pc => ∃ missed, pc = ⟨wait, .idle, [], [], missed⟩)
      ⟨wait, .idle, [], [], missed⟩ :=
  .bind <| flow_wp hk fun _ => ⟨_, .change hc, wakeLists_wp hk wakes⟩

theorem sendSignal_wp (task : τ) (unblocked : Bool) :
    (flowProtocol inv enabled).wp self (sendSignal task unblocked)
      (fun _ pc => ∃ missed, pc = ⟨wait, .idle, [], [], missed⟩) ⟨wait, .idle, [], [], missed⟩ := by
  have hrest : (flowProtocol inv enabled).wp self (do
      let _ ← wakeAll .signal
      if (← status task) ≠ .stopped then
        if ← hasUnblockedPending task then
          let _ ← markBlockedTaskReady task .interrupted : WaitM τ Unit)
      (fun _ pc => ∃ missed, pc = ⟨wait, .idle, [], [], missed⟩) ⟨wait, .idle, [], [], missed⟩ := by
    refine .bind ((wakeMatching_wp hk .signal none .all).mono fun _ pc he => ?_)
    obtain rfl | ⟨_, _, hn, _⟩ := he
    case inr => cases hn
    refine .bind <| free_wp hk (.status task) rfl fun status => ?_
    by_cases hs : status = .stopped
    case pos =>
      subst hs
      exact ⟨_, rfl⟩
    case neg =>
      simp only [hs, ne_eq, not_false_eq_true, if_true]
      refine .bind <| free_wp hk (.hasUnblockedPending task) rfl fun pending => ?_
      cases pending
      case false => exact ⟨_, rfl⟩
      case true => exact .bind ((markBlockedTaskReady_wp hk task .interrupted).mono fun _ _ he => ⟨_, he⟩)
  cases unblocked
  case false => exact hrest
  case true => exact .bind <| free_wp hk (.setUnblockedPending task true) rfl fun _ => hrest

theorem suspendCurrentAndRunNext_wp {restarting : Bool} :
    (flowProtocol inv enabled).wp self (suspendCurrentAndRunNext self)
      (fun _ pc => pc = ⟨.out restarting, .idle, [], [], missed⟩) ⟨.out restarting, .idle, [], [], missed⟩ := by
  refine .bind <| wait_wp hk fun _ => ⟨_, .switchOut, .bind <| wait_wp hk fun _ => ⟨_, .suspend, ?_⟩⟩
  refine dispatch_wp hk (.suspended restarting) (fun ready => ?_) .switchIn
  cases ready <;> exact .dispatch

theorem waitCall_wp {α : Type} {p : WaitM τ α} (hc : WaitCall protocol isKernel self p) {pc : Pc τ} (hpc : pc.Idle) :
    (flowProtocol inv enabled).wp self p (fun _ pc => pc.Idle) pc := by
  obtain ⟨restarting, missed, rfl⟩ := hpc
  cases hc
  case sleep foreground list keys deadlineUs reason condition hw hl =>
    exact syscall_wp hk (sleepUntilKeysIfWithReason_wp hk foreground list keys deadlineUs reason condition hw hl)
  case wake list limit filter =>
    refine (wakeMatching_wp hk list limit filter).mono fun _ pc he => ?_
    obtain rfl | ⟨missed, _, _, _, rfl⟩ := he
    case inl => exact ⟨restarting, _, rfl⟩
    case inr => exact ⟨restarting, missed, rfl⟩
  case notify f wakes hc => exact (notify_wp hk f wakes hc).mono fun _ _ ⟨missed, he⟩ => ⟨restarting, missed, he⟩
  case futexWait foreground futex => exact syscall_wp hk (futexWaitAddr_wp hk foreground futex)
  case futexWake uaddr key n bitset =>
    exact (futexWakeAddrKey_wp hk uaddr key n bitset).mono fun _ _ ⟨missed, he⟩ => ⟨restarting, missed, he⟩
  case futexRequeue args => exact (futexRequeueAddr_wp hk args).mono fun _ _ he => ⟨restarting, missed, he⟩
  case expire => exact (wakeExpiredTimers_wp hk).mono fun _ _ he => ⟨restarting, missed, he⟩
  case signal task unblocked =>
    exact (sendSignal_wp hk task unblocked).mono fun _ _ ⟨missed, he⟩ => ⟨restarting, missed, he⟩
  case suspend => exact (suspendCurrentAndRunNext_wp hk).mono fun _ _ he => ⟨restarting, missed, he⟩
  case yield => exact wait_wp hk fun _ => ⟨_, .yield, restarting, missed, rfl⟩
  case handled task => exact free_wp hk (.setUnblockedPending task false) rfl fun _ => ⟨restarting, missed, rfl⟩
  case elapse us => exact free_wp hk (.elapse us) rfl fun _ => ⟨restarting, missed, rfl⟩

end

-- The invariant holds in every configuration that is reached, and every thread is where its place says.
theorem flow_sound {inv : WaitState τ → (τ → Pc τ) → Prop} {enabled : WaitEnabled τ}
    {allowed : WaitState τ → (τ → Option (Σ β, WaitInstr τ β)) → τ → Prop}
    {config config' : Config (WaitInstr τ) (WaitState τ) τ} (hk : FlowKeeps protocol isKernel inv enabled)
    (hc : WaitConfig protocol isKernel config)
    (hinv : inv config.state fun _ => ⟨.out false, .idle, [], [], none⟩)
    (ha : ∀ state heads pcs thread, inv state pcs → (∀ other, (pcs other).Fits (heads other)) →
      allowed state heads thread → enabled state pcs thread (heads thread))
    (hr : Config.Reachable machine allowed config config') :
    ∃ pcs, inv config'.state pcs ∧ (∀ thread, (pcs thread).Fits (config'.heads thread)) ∧
      ∀ thread a, config'.prog thread = .ret a → (pcs thread).Idle := by
  have hfits {config : Config (WaitInstr τ) (WaitState τ) τ} {pcs : τ → Pc τ}
      (h : Sound (flowProtocol inv enabled) (fun _ => Pc.Idle) config pcs) (thread : τ) :
      (pcs thread).Fits (config.heads thread) := by
    obtain ⟨a, hp, restarting, missed, hpc⟩ | hf := h.fits thread
    case inl =>
      rw [hpc, Config.heads, hp]
      exact .none (by simp)
    case inr => exact hf
  have hsound : Sound (flowProtocol inv enabled) (fun _ => Pc.Idle) config
      fun _ => ⟨.out false, .idle, [], [], none⟩ :=
    ⟨hinv, fun thread => .calls (hc.calls thread) ⟨false, none, rfl⟩ fun hcall hidle => waitCall_wp hk hcall hidle⟩
  obtain ⟨pcs, hpcs⟩ := sound hsound (fun config pcs thread h hallowed =>
    ha config.state config.heads pcs thread h.inv (hfits h) hallowed) hr
  refine ⟨pcs, hpcs.inv, hfits hpcs, fun thread a hp => ?_⟩
  have hw := hpcs.wp thread
  rw [hp] at hw
  exact hw

end WllOs
