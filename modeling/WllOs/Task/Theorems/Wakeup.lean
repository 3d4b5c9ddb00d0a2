import WllOs.Task.Theorems.FutexRemoval
import WllOs.Task.Wakeup

namespace WllOs

open Function (update)
open WaitInstr Protocol

variable {τ : Type} {protocol : WaitProtocol} {isKernel : τ → Bool} {thread task : τ} {pc pc' : WaitPc}
variable {state state' : WaitState τ} {waiter waiter' : Waiter τ} {wakes wakes' : τ → WakePc τ}

namespace WaitPc

-- The points at which the status may be `Blocked`.
def MayBlock : WaitPc → Prop
  | published _ | unpublishing _ | switching _ | waiting _ => True
  | _ => False

-- Between these points and the publication of `Blocked`, the reason tells wakers of the wait.
def HasReason : WaitPc → Prop
  | reasoned _ _ | registered _ | evaluated _ | checked _ | blocking _ => True
  | _ => False

-- The wait that the task has entries for.
def active : WaitPc → Option Wait
  | registered wait | evaluated wait | checked wait | blocking wait | published wait | switching wait | waiting wait =>
    some wait
  | _ => none

def token : WaitPc → Option Nat
  | counted _ token | cleared _ token | reasoned _ token => some token
  | pc => pc.active.map (·.token)

-- The points at which the task has its processor.
def Runs : WaitPc → Prop
  | suspended _ | waiting _ | dispatched | awake _ false | kernelBlocked _ => False
  | _ => True

-- The points from the publication of `Blocked` on.
def Published : WaitPc → Prop
  | published _ | switching _ | waiting _ => True
  | _ => False

-- No outcome was there when it was looked for after the publication.
def Rechecked : WaitPc → Prop
  | switching _ | waiting _ => True
  | _ => False

-- The tokens of all entries are below it: a token that has just been counted is new.
def limit (waitToken : Nat) : WaitPc → Nat
  | counted _ _ | cleared _ _ | reasoned _ _ => waitToken
  | _ => waitToken + 1

-- The condition has been found to hold.
def Evaluated : WaitPc → Prop
  | evaluated _ | checked _ | blocking _ | published _ | switching _ | waiting _ => True
  | _ => False

end WaitPc

-- The waker has a token of the task.
def WakePc.Carries (task : τ) (token : Nat) : WakePc τ → Prop
  | idle                                   => False
  | took other token' | accepted other token' => other = task ∧ token' = token
  | locked other _                         => other = task

-- What the holder of the lock of the status knows.
def LockStage.Fits (status : TaskStatus) (pc : WaitPc) : LockStage → Prop
  | blocked         => status = .blocked
  | ready | cleared => status ≠ .blocked ∧ pc.MayBlock
  | _               => status ≠ .blocked

-- The status, its lock and the reason of a user task.
structure Guarded (task : τ) (waiter : Waiter τ) (pc : WaitPc) (wakes : τ → WakePc τ) : Prop where
  lock : ∀ thread, waiter.statusLock = some thread ↔ ∃ stage, wakes thread = .locked task stage
  stage : ∀ thread stage, wakes thread = .locked task stage → stage.Fits waiter.status pc
  blocked : waiter.status = .blocked → pc.MayBlock
  alive : waiter.status ≠ .zombie
  user : ∀ wait, pc ≠ .kernelBlocked wait
  reason : pc.HasReason → waiter.blockReason.isSome
  token : ∀ token, pc.token = some token → waiter.waitToken = token
  current : pc.Runs → waiter.current

namespace WaitState

-- The wait of the task has been woken.
def Woken (state : WaitState τ) (task : τ) (pc : WaitPc) : Prop :=
  (state.tasks task).waitOutcome.isSome ∨ pc.Published ∧ (state.tasks task).status ≠ .blocked

def Met (state : WaitState τ) (task : τ) (pc : WaitPc) : Prop :=
  state.Woken task pc ∨ state.Waking task

-- The task has a wait that is not for a futex.
def Tracked (state : WaitState τ) (task : τ) (pc : WaitPc) : Prop :=
  pc.active.isSome ∧ (state.waits task).list ≠ .futex

end WaitState

-- The entries of the wait of a task, its outcome and the wakes that are on their way to it.
structure Watched (protocol : WaitProtocol) (task : τ) (state : WaitState τ) (pc : WaitPc) (wakes : τ → WakePc τ) :
    Prop where
  taken : ∀ thread list entry, state.taken thread = some (list, entry) → entry.task = task →
    (wakes thread).Carries task entry.token
  wait : ∀ wait, pc.active = some wait → state.waits task = wait
  fresh : ∀ list entry, list ≠ .futex → entry.task = task →
    (entry ∈ state.queues list ∨ ∃ thread, state.taken thread = some (list, entry)) →
    entry.token < pc.limit (state.tasks task).waitToken
  known : state.Tracked task pc →
    protocol.waits (state.waits task).list (state.waits task).keys (state.waits task).condition
  seen : ∀ wait, pc = .unpublishing wait → (state.tasks task).waitOutcome.isSome
  asleep : pc.Rechecked → (state.tasks task).status = .blocked → (state.tasks task).waitOutcome = none
  done : state.Tracked task pc → ∀ thread entry, wakes thread = .locked task .done →
    state.taken thread = some ((state.waits task).list, entry) → entry.task = task →
    entry.token = (state.waits task).token → state.Woken task pc
  listed : state.Tracked task pc → ∀ key ∈ (state.waits task).keys, state.Listed task key ∨ state.Met task pc
  due : state.Tracked task pc → pc.Evaluated →
    (state.waits task).condition state.memory = .ok true ∨ state.Met task pc ∨ state.WakeOwed task

variable [DecidableEq τ] {β : Type} {i : WaitInstr τ β} {b : β}

-- The task whose record an instruction changes, and how.
def writes (thread : τ) : {β : Type} → WaitInstr τ β → β → Option (τ × (Waiter τ → Waiter τ))
  | _, takeOutcome task, _ | _, clearOutcome task, _ => some (task, ({ · with waitOutcome := none }))
  | _, recordOutcome task outcome, _                 => some (task, ({ · with waitOutcome := some outcome }))
  | _, storeReason task blockReason, _               => some (task, ({ · with blockReason }))
  | _, abandonReason task, _                         => some (task, ({ · with blockReason := none }))
  | _, nextWaitToken task, _                         =>
    some (task, fun waiter => { waiter with waitToken := waiter.waitToken + 1 })
  | _, lockStatus task, _                            => some (task, ({ · with statusLock := some thread }))
  | _, unlockStatus task, _                          => some (task, ({ · with statusLock := none }))
  | _, writeStatus task next, _ | _, setStatus task next, _ => some (task, ({ · with status := next }))
  | _, setStatusIf task _ next, changed              =>
    some (task, fun waiter => { waiter with status := if changed then next else waiter.status })
  | _, setCurrent task current, _                    => some (task, ({ · with current }))
  | _, setUnblockedPending task unblockedPending, _  => some (task, ({ · with unblockedPending }))
  | _, _, _                                          => none

-- What the result of an instruction says of the state that it finds.
def Reads (state : WaitState τ) : {β : Type} → WaitInstr τ β → β → Prop
  | _, lockStatus task, found | _, .status task, found =>
    (state.tasks task).statusLock = none ∧ (state.tasks task).status = found
  | _, setStatus task _, _ => (state.tasks task).statusLock = none
  | _, setStatusIf task expected _, changed =>
    (state.tasks task).statusLock = none ∧ (changed = true ↔ (state.tasks task).status = expected)
  | _, loadOutcome task, outcome => (state.tasks task).waitOutcome = outcome
  | _, loadReason task, reason => (state.tasks task).blockReason = reason
  | _, shouldSleep condition, result => condition state.memory = result
  | _, nextWaitToken task, token => (state.tasks task).waitToken + 1 = token
  | _, compareToken task token, same => sameToken (state.tasks task).waitToken token = same
  | _, _, _ => True

-- The instructions that change what a thread owes.
def Owes : {β : Type} → WaitInstr τ β → Prop
  | _, takeWaiter _ _ | _, change _ _ => True
  | _, _ => False

-- The instructions that leave the entries of all waits, the wakes that are owed and the memory alone.
def Waitless : {β : Type} → WaitInstr τ β → β → Prop
  | _, pushWaiters _ _, _ | _, removeWaiters _ _ _, _ | _, removeTaskWaiters _ _, _ | _, takeWaiter _ _, _
  | _, compareToken _ _, false | _, unlockStatus _, _ | _, change _ _, _ => False
  | _, _, _ => True

-- A step that leaves the waits of the task alone.
structure Alike (task : τ) (state state' : WaitState τ) : Prop where
  waits : state'.waits task = state.waits task
  memory : state'.memory = state.memory
  owed : state'.owed = state.owed
  taken : ∀ thread list entry, entry.task = task →
    (state'.taken thread = some (list, entry) ↔ state.taken thread = some (list, entry))
  queues : ∀ list entry, list ≠ .futex → entry.task = task → (entry ∈ state'.queues list ↔ entry ∈ state.queues list)

omit [DecidableEq τ] in
theorem Alike.of_eq (hw : state'.waits = state.waits) (hm : state'.memory = state.memory)
    (ho : state'.owed = state.owed) (ht : state'.taken = state.taken) (hq : state'.queues = state.queues) :
    Alike task state state' :=
  ⟨by rw [hw], hm, ho, fun _ _ _ _ => by rw [ht], fun _ _ _ _ => by rw [hq]⟩

-- What an instruction does and finds.
structure Runs (thread : τ) {β : Type} (i : WaitInstr τ β) (b : β) (state state' : WaitState τ) : Prop where
  tasks : state'.tasks =
    (writes thread i b).elim state.tasks fun (other, f) => update state.tasks other (f (state.tasks other))
  reads : Reads state i b
  owed : ¬Owes i → state'.owed = state.owed
  alike : ∀ task, Waitless i b → Alike task state state'

theorem exec_runs (hx : machine.exec thread i state = some (b, state')) : Runs thread i b state state' := by
  cases i
  case storeReason =>
    cases hx
    refine ⟨storeReasonExec_tasks _ _, trivial, fun _ => ?_, fun _ _ => ?_⟩
    all_goals
      rw [storeReasonExec]
      split
      all_goals first | rfl | exact .of_eq rfl rfl rfl rfl rfl
  case lockStatus | setStatus | status =>
    simp only [machine, unlocked] at hx
    split at hx <;> cases hx
    exact ⟨rfl, by simp [Reads, *], fun _ => rfl, fun _ _ => .of_eq rfl rfl rfl rfl rfl⟩
  case setStatusIf =>
    simp only [machine, unlocked] at hx
    split at hx <;> split at hx <;> cases hx
    all_goals refine ⟨?_, by simp [Reads, *], fun _ => rfl, fun _ _ => .of_eq rfl rfl rfl rfl rfl⟩
    case isTrue.isTrue => rfl
    case isFalse.isTrue => exact (Function.update_eq_self _ _).symm
  case compareToken =>
    simp only [machine] at hx
    split at hx <;> cases hx
    all_goals refine ⟨rfl, by simp [Reads, *], fun _ => rfl, fun _ hi => ?_⟩
    case isTrue => exact .of_eq rfl rfl rfl rfl rfl
    case isFalse => exact hi.elim
  case takeWaiter =>
    simp only [machine, takeWaiterExec, Option.some.injEq] at hx
    split at hx <;> cases hx <;> exact ⟨rfl, trivial, fun hi => absurd trivial hi, fun _ hi => hi.elim⟩
  case requeue =>
    cases hx
    exact ⟨rfl, trivial, fun _ => rfl, fun _ _ => ⟨rfl, rfl, rfl, fun _ _ _ _ => .rfl, fun list entry hl _ => by
      simp [WaitState.setQueue, hl]⟩⟩
  case pushWaiters | removeWaiters | removeTaskWaiters | unlockStatus =>
    cases hx
    exact ⟨rfl, trivial, fun _ => rfl, fun _ hi => hi.elim⟩
  case change =>
    cases hx
    exact ⟨rfl, trivial, fun hi => absurd trivial hi, fun _ hi => hi.elim⟩
  all_goals
    cases hx
    exact ⟨rfl, by first | rfl | trivial, fun _ => rfl, fun _ _ => .of_eq rfl rfl rfl rfl rfl⟩

theorem exec_other (hi : ∀ write ∈ writes thread i b, write.1 ≠ task)
    (hx : machine.exec thread i state = some (b, state')) : state'.tasks task = state.tasks task := by
  rw [(exec_runs hx).tasks]
  cases hw : writes thread i b
  case none => rfl
  case some write => exact Function.update_of_ne (hi write hw).symm _ _

namespace Guarded

section

omit [DecidableEq τ]

-- The status and its lock stay as they are.
theorem move (h : Guarded task waiter pc wakes) (hl : waiter'.statusLock = waiter.statusLock)
    (hs : waiter'.status = waiter.status) (hb : pc.MayBlock → pc'.MayBlock) (hk : ∀ wait, pc' ≠ .kernelBlocked wait)
    (hr : pc'.HasReason → waiter'.blockReason.isSome) (ht : ∀ token, pc'.token = some token → waiter'.waitToken = token)
    (hc : pc'.Runs → waiter'.current) : Guarded task waiter' pc' wakes where
  lock thread := hl ▸ h.lock thread
  stage thread stage hw := by
    have hfits := h.stage thread stage hw
    rw [hs]
    cases stage
    case ready | cleared => exact ⟨hfits.1, hb hfits.2⟩
    all_goals exact hfits
  blocked he := hb (h.blocked (hs ▸ he))
  alive := hs ▸ h.alive
  user := hk
  reason := hr
  token := ht
  current := hc

-- Nobody holds the lock of the status.
theorem change (h : Guarded task waiter pc wakes) (hl : waiter.statusLock = none) (hl' : waiter'.statusLock = none)
    (hb : waiter'.status = .blocked → pc'.MayBlock) (hs : waiter'.status ≠ .zombie)
    (hk : ∀ wait, pc' ≠ .kernelBlocked wait) (hr : pc'.HasReason → waiter'.blockReason.isSome)
    (ht : ∀ token, pc'.token = some token → waiter'.waitToken = token) (hc : pc'.Runs → waiter'.current) :
    Guarded task waiter' pc' wakes where
  lock thread := hl'.trans hl.symm ▸ h.lock thread
  stage thread stage hw := absurd ((h.lock thread).mpr ⟨stage, hw⟩) (by simp [hl])
  blocked := hb
  alive := hs
  user := hk
  reason := hr
  token := ht
  current := hc

-- What the wakers do does not concern the task.
theorem congr (h : Guarded task waiter pc wakes)
    (hw : ∀ thread stage, wakes' thread = .locked task stage ↔ wakes thread = .locked task stage) :
    Guarded task waiter pc wakes' :=
  { h with
    lock := fun thread => by simp [h.lock, hw]
    stage := fun thread stage he => h.stage thread stage ((hw thread stage).mp he) }

theorem only {other : τ} {stage : LockStage} (h : Guarded task waiter pc wakes)
    (hl : waiter.statusLock = none ∨ waiter.statusLock = some thread) (ho : other ≠ thread) :
    wakes other ≠ .locked task stage := by
  intro he
  have := (h.lock other).mpr ⟨stage, he⟩
  simp_all

end

-- A step of the task itself.
theorem own (h : Guarded task (state.tasks task) pc wakes) (hu : isKernel task = false)
    (hf : WaitFlow protocol isKernel task pc i b pc') (hx : machine.exec task i state = some (b, state')) :
    Guarded task (state'.tasks task) pc' wakes := by
  have hreads := (exec_runs hx).reads
  have hw := congrFun (exec_runs hx).tasks task
  have hreason := h.reason
  have htoken := h.token
  have hcurrent := h.current
  have hblocked := h.blocked
  have halive := h.alive
  cases hf
  case blockKernel hk => simp [hu] at hk
  case switchKernel | notReadyKernel | dispatchKernel => exact absurd rfl (h.user _)
  case zombie => exact absurd hreads.2 halive
  case wakeup hs =>
    rw [hw]
    exact h.change hreads.1 hreads.1 (fun hb => absurd (hreads.2.symm.trans hb) hs) halive nofun nofun nofun nofun
  case yield | suspend =>
    simp only [writes, Option.elim, Function.update_self] at hw
    rw [hw]
    exact h.change hreads hreads nofun nofun nofun nofun nofun hcurrent
  case publish | notReady | restart | dispatch | notRunning | unpublish | runAwake =>
    obtain ⟨hl, he⟩ := hreads
    simp only [writes, Option.elim, Function.update_self] at hw
    rw [hw]
    refine h.change hl hl ?_ ?_ nofun nofun (by first | exact htoken | exact nofun) hcurrent
    case refine_1 => grind [WaitPc.MayBlock]
    case refine_2 => grind
  all_goals
    simp only [writes, Option.elim, Function.update_self] at hw
    rw [hw]
    refine h.move rfl rfl ?_ nofun ?_ ?_ ?_
    case refine_1 => simp [WaitPc.MayBlock]
    case refine_2 => first | exact hreason | simp [WaitPc.HasReason]
    case refine_3 => first | exact htoken | exact fun _ ht => Eq.trans hreads (Option.some.inj ht) | exact nofun
    case refine_4 => first | exact hcurrent | simp [WaitPc.Runs]

-- A waker takes the lock, or goes on while it has it.
theorem holds {stage : LockStage} (h : Guarded task waiter pc wakes)
    (honly : waiter.statusLock = none ∨ waiter.statusLock = some thread) (hl : waiter'.statusLock = some thread)
    (hfits : stage.Fits waiter'.status pc) (hb : waiter'.status = .blocked → pc.MayBlock)
    (hs : waiter'.status ≠ .zombie) (hr : pc.HasReason → waiter'.blockReason.isSome)
    (ht : waiter'.waitToken = waiter.waitToken) (hc : waiter'.current = waiter.current) :
    Guarded task waiter' pc (update wakes thread (.locked task stage)) := by
  refine ⟨fun other => ?_, fun other stage' he => ?_, hb, hs, h.user, hr, ht ▸ h.token, hc ▸ h.current⟩
  all_goals by_cases ho : other = thread
  case pos => simp [ho, hl]
  case neg => simp [ho, hl, h.only honly ho, Ne.symm ho]
  case pos =>
    simp only [ho, Function.update_self, WakePc.locked.injEq, true_and] at he
    exact he ▸ hfits
  case neg =>
    rw [Function.update_of_ne ho] at he
    exact absurd he (h.only honly ho)

-- A waker gives the lock back.
theorem release (h : Guarded task waiter pc wakes) (hl : waiter.statusLock = some thread) :
    Guarded task { waiter with statusLock := none } pc (update wakes thread .idle) := by
  refine ⟨fun other => ?_, fun other stage he => ?_, h.blocked, h.alive, h.user, h.reason, h.token, h.current⟩
  all_goals by_cases ho : other = thread
  case pos => simp [ho]
  case neg => simp [ho, h.only (.inr hl) ho]
  case pos => simp [ho] at he
  case neg => exact absurd ((Function.update_of_ne ho _ _).symm.trans he) (h.only (.inr hl) ho)

-- A step of a waker.
theorem wake {wake wake' : WakePc τ} (h : Guarded task (state.tasks task) pc wakes) (hw : wakes thread = wake)
    (hf : WakeFlow wake i b wake') (hx : machine.exec thread i state = some (b, state')) :
    Guarded task (state'.tasks task) pc (update wakes thread wake') := by
  have hreads := (exec_runs hx).reads
  have hlock {stage : LockStage} (he : wake = .locked task stage) : (state.tasks task).statusLock = some thread :=
    (h.lock thread).mpr ⟨stage, hw.trans he⟩
  have hstage {stage : LockStage} (he : wake = .locked task stage) := h.stage thread stage (hw.trans he)
  by_cases htask : (∃ stage, wake = .locked task stage) ∨ ∃ stage, wake' = .locked task stage
  case neg =>
    simp only [not_or, not_exists] at htask
    rw [exec_other (by cases hf <;> simp_all [writes]) hx]
    refine h.congr fun other stage => ?_
    by_cases ho : other = thread
    case pos => simp [ho, hw, htask]
    case neg => simp [ho]
  case pos =>
    cases hf
    case accept | stale => simp at htask
    all_goals
      rename τ => other
      obtain rfl : other = task := by simpa using htask
      have he := congrFun (exec_runs hx).tasks other
      simp only [writes, Option.elim, Function.update_self] at he
      rw [he]
    case lockOther | lockBlocked | interruptOther | interruptBlocked =>
      refine h.holds (.inl hreads.1) rfl ?_ h.blocked h.alive h.reason rfl rfl
      first | exact hreads.2 ▸ ‹_ ≠ _› | exact hreads.2
    case sawReason | sawNone | recordEarly | record =>
      have hs := hstage rfl
      exact h.holds (.inr (hlock rfl)) (hlock rfl) (by first | exact hs | exact hs.1) h.blocked h.alive h.reason rfl rfl
    case ready =>
      exact h.holds (.inr (hlock rfl)) (hlock rfl) ⟨nofun, h.blocked (hstage rfl)⟩ nofun nofun h.reason rfl rfl
    case clear =>
      obtain ⟨hs, hp⟩ := hstage rfl
      refine h.holds (.inr (hlock rfl)) (hlock rfl) ⟨hs, hp⟩ h.blocked h.alive (fun hr => ?_) rfl rfl
      cases pc <;> first | exact hp.elim | exact hr.elim
    case unlock => exact h.release (hlock rfl)

end Guarded

-- What a step has to keep of a wait that stays active: its entries, the wakes that are on their way, and that it is
-- woken if its condition comes to an end.
structure KeepsWait (task : τ) (state state' : WaitState τ) (pc pc' : WaitPc) (wakes' : τ → WakePc τ) : Prop where
  done : ∀ thread entry, wakes' thread = .locked task .done →
    state'.taken thread = some ((state.waits task).list, entry) → entry.task = task →
    entry.token = (state.waits task).token → state'.Woken task pc'
  listed : ∀ key ∈ (state.waits task).keys, state.Listed task key → state'.Listed task key ∨ state'.Met task pc'
  met : state.Met task pc → state'.Met task pc'
  due : pc'.Evaluated → pc.Evaluated ∨ (state.waits task).condition state.memory = .ok true
  condition : (state.waits task).condition state.memory = .ok true →
    (state.waits task).condition state'.memory = .ok true ∨ state'.Met task pc' ∨ state'.WakeOwed task
  owed : state.WakeOwed task → state'.Met task pc' ∨ state'.WakeOwed task

-- What wakers do to the status and the outcome of a task.
structure WakeStep (waiter waiter' : Waiter τ) : Prop where
  token : waiter'.waitToken = waiter.waitToken
  status : waiter'.status = waiter.status ∨ waiter'.status ≠ .blocked ∧ waiter.status = .blocked
  outcome : waiter'.waitOutcome = waiter.waitOutcome ∨ waiter'.waitOutcome.isSome ∧ waiter.status ≠ .blocked

section

omit [DecidableEq τ]

theorem WakeStep.of_eq (h : waiter' = waiter) : WakeStep waiter waiter' :=
  h ▸ ⟨rfl, .inl rfl, .inl rfl⟩

theorem WakeStep.woken (h : WakeStep (state.tasks task) (state'.tasks task)) (hw : state.Woken task pc) :
    state'.Woken task pc := by
  rcases h.outcome with ho | ho
  · refine hw.imp (fun hw => ho ▸ hw) fun hw => ⟨hw.1, ?_⟩
    exact h.status.elim (fun he => he ▸ hw.2) fun hn => hn.1
  · exact .inl ho.1

theorem WakeStep.seen (h : WakeStep waiter waiter') (ho : waiter.waitOutcome.isSome) : waiter'.waitOutcome.isSome :=
  h.outcome.elim (fun he => he ▸ ho) And.left

theorem WakeStep.asleep (h : WakeStep waiter waiter') (ho : waiter.status = .blocked → waiter.waitOutcome = none)
    (hb : waiter'.status = .blocked) : waiter'.waitOutcome = none := by
  have hb' : waiter.status = .blocked := h.status.elim (fun he => he ▸ hb) fun hn => absurd hb hn.1
  exact h.outcome.elim (fun he => he.trans (ho hb')) fun hn => absurd hb' hn.2

theorem mem_setQueue {list list' : WaitList} {f : List (WaitEntry τ) → List (WaitEntry τ)} {entry : WaitEntry τ}
    (h : entry ∈ f (state.queues list) ↔ entry ∈ state.queues list) :
    entry ∈ (state.setQueue list f).queues list' ↔ entry ∈ state.queues list' := by
  by_cases hl : list' = list
  case pos => simpa [hl, WaitState.setQueue] using h
  case neg => simp [WaitState.setQueue, hl]

theorem mem_of_setQueue {list list' : WaitList} {f : List (WaitEntry τ) → List (WaitEntry τ)} {entry : WaitEntry τ}
    (h : (f (state.queues list)).Sublist (state.queues list)) (hm : entry ∈ (state.setQueue list f).queues list') :
    entry ∈ state.queues list' := by
  by_cases hl : list' = list
  case pos =>
    subst hl
    exact h.subset (by simpa [WaitState.setQueue] using hm)
  case neg => simpa [WaitState.setQueue, hl] using hm

theorem mem_removeEntries {list : WaitList} {own : WaitEntry τ → Bool} {entries : List (WaitEntry τ)}
    {entry : WaitEntry τ} (h : own entry = false) : entry ∈ removeEntries list own entries ↔ entry ∈ entries := by
  cases list <;> simp [removeEntries, h, List.mem_eraseP_of_neg]

theorem mem_eraseP_or_eq {p : WaitEntry τ → Bool} {entries : List (WaitEntry τ)} {entry other : WaitEntry τ}
    (hf : entries.find? p = some entry) (hm : other ∈ entries) : other ∈ entries.eraseP p ∨ other = entry := by
  obtain ⟨hp, before, after, rfl, hbefore⟩ := List.find?_eq_some_iff_append.mp hf
  rw [List.eraseP_append_right _ (by simpa using hbefore), List.eraseP_cons_of_pos hp]
  simp only [List.mem_append, List.mem_cons] at hm ⊢
  tauto

end

theorem Guarded.wakeStep {wake wake' : WakePc τ} (h : Guarded task (state.tasks task) pc wakes)
    (hw : wakes thread = wake) (hf : WakeFlow wake i b wake') (hx : machine.exec thread i state = some (b, state')) :
    WakeStep (state.tasks task) (state'.tasks task) := by
  have he := congrFun (exec_runs hx).tasks task
  have hstage {stage : LockStage} (hl : wake = .locked task stage) := h.stage thread stage (hw.trans hl)
  by_cases htask : ∃ write ∈ writes thread i b, write.1 = task
  case neg => exact .of_eq (exec_other (fun write hm ht => htask ⟨write, hm, ht⟩) hx)
  case pos =>
    cases hf
    case accept | stale | sawReason | sawNone => simp [writes] at htask
    all_goals
      rename τ => other
      obtain rfl : other = task := by simpa [writes] using htask
      simp only [writes, Option.elim, Function.update_self] at he
      rw [he]
    case ready => exact ⟨rfl, .inr ⟨nofun, hstage rfl⟩, .inl rfl⟩
    case recordEarly => exact ⟨rfl, .inl rfl, .inr ⟨rfl, hstage rfl⟩⟩
    case record =>
      have hs := hstage rfl
      exact ⟨rfl, .inl rfl, .inr ⟨rfl, hs.1⟩⟩
    all_goals exact ⟨rfl, .inl rfl, .inl rfl⟩

-- A step that another task takes in a wait.
theorem WaitFlow.alike (hf : WaitFlow protocol isKernel thread pc i b pc') (ht : task ≠ thread)
    (hx : machine.exec thread i state = some (b, state')) : Alike task state state' := by
  cases hf
  case register wait _ =>
    cases hx
    have hown {entry : WaitEntry τ} (he : entry.task = task) : entry ∉ wait.entries thread := by
      intro hm
      obtain ⟨_, -, rfl⟩ := List.mem_map.mp hm
      exact ht he.symm
    exact ⟨Function.update_of_ne ht _ _, rfl, rfl, fun _ _ _ _ => .rfl,
      fun _ _ _ he => @mem_setQueue _ state _ _ (· ++ _) _ (by simp [hown he])⟩
  case removeOld =>
    cases hx
    exact ⟨rfl, rfl, rfl, fun _ _ _ _ => .rfl, fun _ _ _ he => mem_setQueue (by simp [he, ht])⟩
  case resumedRemove | withdraw | remove =>
    cases hx
    exact ⟨rfl, rfl, rfl, fun _ _ _ _ => .rfl, fun _ _ _ he => mem_setQueue (mem_removeEntries (by simp [he, ht]))⟩
  all_goals exact (exec_runs hx).alike task trivial

namespace Watched

section

omit [DecidableEq τ]

theorem step (h : Watched protocol task state pc wakes)
    (htaken : ∀ thread list entry, state'.taken thread = some (list, entry) → entry.task = task →
      (wakes' thread).Carries task entry.token)
    (hactive : ∀ wait, pc'.active = some wait → pc.active = some wait)
    (hfresh : ∀ list entry, list ≠ .futex → entry.task = task →
      (entry ∈ state'.queues list ∨ ∃ thread, state'.taken thread = some (list, entry)) →
      entry.token < pc'.limit (state'.tasks task).waitToken)
    (hseen : ∀ wait, pc' = .unpublishing wait → (state'.tasks task).waitOutcome.isSome)
    (hasleep : pc'.Rechecked → (state'.tasks task).status = .blocked → (state'.tasks task).waitOutcome = none)
    (hwaits : pc'.active.isSome → state'.waits task = state.waits task)
    (hkeeps : pc'.active.isSome → state.Tracked task pc → KeepsWait task state state' pc pc' wakes') :
    Watched protocol task state' pc' wakes' := by
  have htracked (ht : state'.Tracked task pc') : state.Tracked task pc := by
    obtain ⟨wait, hw⟩ := Option.isSome_iff_exists.mp ht.1
    exact ⟨Option.isSome_iff_exists.mpr ⟨wait, hactive wait hw⟩, hwaits ht.1 ▸ ht.2⟩
  refine ⟨htaken, fun wait hw => ?_, hfresh, fun ht => ?_, hseen, hasleep, fun ht => ?_, fun ht key hk => ?_,
    fun ht hp => ?_⟩
  case refine_1 => exact (hwaits (by simp [hw])).trans (h.wait wait (hactive wait hw))
  all_goals
    have hkeeps := hkeeps ht.1 (htracked ht)
    rw [hwaits ht.1] at *
  case refine_2 => exact h.known (htracked ht)
  case refine_3 => exact hkeeps.done
  case refine_4 =>
    rcases h.listed (htracked ht) key hk with hlisted | hmet
    · exact hkeeps.listed key hk hlisted
    · exact .inr (hkeeps.met hmet)
  case refine_5 =>
    rcases hkeeps.due hp with he | hc
    · rcases h.due (htracked ht) he with hc | hm | ho
      · exact hkeeps.condition hc
      · exact .inr (.inl (hkeeps.met hm))
      · exact .inr (hkeeps.owed ho)
    · exact hkeeps.condition hc

-- A step that leaves the waits of the task alone.
theorem frame (h : Watched protocol task state pc wakes) (ha : Alike task state state')
    (hcarries : ∀ thread token, (wakes thread).Carries task token → (wakes' thread).Carries task token)
    (hdone : pc'.active.isSome → ∀ thread token, (wakes thread).Carries task token →
      wakes' thread = .locked task .done → wakes thread = .locked task .done ∨ state'.Woken task pc')
    (hactive : ∀ wait, pc'.active = some wait → pc.active = some wait)
    (hlimit : pc.limit (state.tasks task).waitToken ≤ pc'.limit (state'.tasks task).waitToken)
    (hseen : ∀ wait, pc' = .unpublishing wait → (state'.tasks task).waitOutcome.isSome)
    (hasleep : pc'.Rechecked → (state'.tasks task).status = .blocked → (state'.tasks task).waitOutcome = none)
    (hwoken : pc'.active.isSome → state.Woken task pc → state'.Woken task pc')
    (hdue : pc'.Evaluated → pc.Evaluated ∨ (state.waits task).condition state.memory = .ok true) :
    Watched protocol task state' pc' wakes' := by
  have htaken {thread : τ} {list : WaitList} {entry : WaitEntry τ} (he : entry.task = task) :=
    ha.taken thread list entry he
  refine h.step (fun thread list entry ht he => hcarries thread _ (h.taken thread list entry ((htaken he).mp ht) he))
    hactive (fun list entry hl he hm => ?_) hseen hasleep (fun _ => ha.waits) fun hp ht =>
      ⟨fun thread entry hw hx he htoken => ?_, fun key _ hk => .inl ?_, fun hm => ?_, hdue,
        fun hc => .inl (ha.memory ▸ hc),
        fun ⟨thread, filter, key, hm, hf, hk, hlist⟩ => .inr ⟨thread, filter, key, ?_, hf, ?_, ?_⟩⟩
  case refine_1 =>
    refine (h.fresh list entry hl he (hm.imp (ha.queues list entry hl he).mp ?_)).trans_le hlimit
    exact fun ⟨thread, ht⟩ => ⟨thread, (htaken he).mp ht⟩
  case refine_2 =>
    have hx := (htaken he).mp hx
    rcases hdone hp thread _ (h.taken thread _ entry hx he) hw with hw | hw
    · exact hwoken hp (h.done ht thread entry hw hx he htoken)
    · exact hw
  case refine_4 =>
    refine hm.imp (hwoken hp) fun ⟨thread, entry, hx, he, htoken⟩ => ?_
    exact ⟨thread, entry, (htaken he).mpr (ha.waits ▸ hx), he, ha.waits ▸ htoken⟩
  case refine_5 => rwa [ha.waits, ha.owed]
  case refine_6 => rwa [ha.waits]
  all_goals
    rw [WaitState.Listed, ha.waits]
    exact (ha.queues _ _ ht.2 rfl).mpr ‹_›

-- The task has come to a point at which it waits for nothing.
theorem idle (h : Watched protocol task state pc wakes) (ht : state'.taken = state.taken)
    (hq : ∀ list entry, entry ∈ state'.queues list → entry ∈ state.queues list) (hp : pc'.active = none)
    (hr : ¬pc'.Rechecked)
    (hlimit : pc.limit (state.tasks task).waitToken ≤ pc'.limit (state'.tasks task).waitToken)
    (hseen : ∀ wait, pc' = .unpublishing wait → (state'.tasks task).waitOutcome.isSome) :
    Watched protocol task state' pc' wakes := by
  refine h.step (ht ▸ h.taken) (by simp [hp]) ?_ hseen (fun h => absurd h hr) (by simp [hp]) (by simp [hp])
  intro list entry hl he hm
  exact (h.fresh list entry hl he (hm.imp (hq list entry) (by rw [ht]; exact id))).trans_le hlimit

end

-- What another thread does.
theorem free (thread : τ) (wake : WakePc τ) (h : Watched protocol task state pc wakes) (ha : Alike task state state')
    (hs : WakeStep (state.tasks task) (state'.tasks task))
    (hcarries : ∀ token, (wakes thread).Carries task token → wake.Carries task token)
    (hdone : pc.active.isSome → ∀ token, (wakes thread).Carries task token → wake = .locked task .done →
      wakes thread = .locked task .done ∨ state'.Woken task pc) :
    Watched protocol task state' pc (update wakes thread wake) := by
  refine h.frame ha (fun other token hc => ?_) (fun hp other token hc hd => ?_) (fun _ he => he) (by rw [hs.token])
    (fun wait he => hs.seen (h.seen wait he)) (fun hp => hs.asleep (h.asleep hp)) (fun _ => hs.woken) .inl
  all_goals by_cases ho : other = thread
  case pos =>
    subst ho
    rw [Function.update_self]
    exact hcarries token hc
  case neg => rwa [Function.update_of_ne ho]
  case pos =>
    subst ho
    rw [Function.update_self] at hd
    exact hdone hp token hc hd
  case neg =>
    rw [Function.update_of_ne ho] at hd
    exact .inl hd

-- A waker drops the entry that it has, or gets another one.
theorem hands {hand : Option (WaitList × WaitEntry τ)} {wake : WakePc τ} (h : Watched protocol task state pc wakes)
    (hs : WakeStep (state.tasks task) (state'.tasks task)) (hwaits : state'.waits = state.waits)
    (hmemory : state'.memory = state.memory) (htaken : state'.taken = update state.taken thread hand)
    (hhand : ∀ list entry, hand = some (list, entry) →
      wake = .took entry.task entry.token ∧ entry ∈ state.queues list)
    (hqueues : ∀ list entry, entry ∈ state'.queues list → entry ∈ state.queues list)
    (hlisted : ∀ key, state.Listed task key → state'.Listed task key ∨ state'.Waking task)
    (howed : ∀ other filter key, ((state.waits task).list, filter) ∈ state.owed other → filter.accepts key →
      state.Listed task key → ((state.waits task).list, filter) ∈ state'.owed other)
    (hlost : state.Tracked task pc → ∀ entry, state.taken thread = some ((state.waits task).list, entry) →
      entry.task = task → entry.token = (state.waits task).token → state.Woken task pc) :
    Watched protocol task state' pc (update wakes thread wake) := by
  have hold {other : τ} {list : WaitList} {entry : WaitEntry τ} (ht : state'.taken other = some (list, entry)) :
      (other = thread ∧ hand = some (list, entry)) ∨ other ≠ thread ∧ state.taken other = some (list, entry) := by
    rw [htaken] at ht
    by_cases ho : other = thread
    case pos =>
      rw [ho, Function.update_self] at ht
      exact .inl ⟨ho, ht⟩
    case neg =>
      rw [Function.update_of_ne ho] at ht
      exact .inr ⟨ho, ht⟩
  refine h.step (fun other list entry ht he => ?_) (fun _ he => he) (fun list entry hl he hm => ?_)
    (fun wait he => hs.seen (h.seen wait he)) (fun hp => hs.asleep (h.asleep hp)) (fun _ => by rw [hwaits])
    fun hp htr => ⟨fun other entry hw ht he htoken => ?_, fun key _ hk => (hlisted key hk).imp_right .inr,
      fun hm => ?_, .inl, fun hc => .inl (hmemory ▸ hc), fun ⟨other, filter, key, hm, ha, hk, hlist⟩ => ?_⟩
  case refine_1 =>
    rcases hold ht with ⟨rfl, hh⟩ | ⟨ho, ht⟩
    · rw [Function.update_self, (hhand list entry hh).1]
      exact ⟨he, rfl⟩
    · rw [Function.update_of_ne ho]
      exact h.taken other list entry ht he
  case refine_2 =>
    rw [hs.token]
    refine h.fresh list entry hl he ?_
    rcases hm with hm | ⟨other, ht⟩
    · exact .inl (hqueues list entry hm)
    · exact (hold ht).imp (fun hh => (hhand list entry hh.2).2) fun hh => ⟨other, hh.2⟩
  case refine_3 =>
    rcases hold ht with ⟨rfl, hh⟩ | ⟨ho, ht⟩
    · simp [(hhand _ entry hh).1] at hw
    · rw [Function.update_of_ne ho] at hw
      exact hs.woken (h.done htr other entry hw ht he htoken)
  case refine_4 =>
    rcases hm with hw | ⟨other, entry, ht, he, htoken⟩
    · exact .inl (hs.woken hw)
    · by_cases ho : other = thread
      case pos => exact .inl (hs.woken (hlost htr entry (ho ▸ ht) he htoken))
      case neg =>
        have ht' : state'.taken other = some ((state'.waits task).list, entry) := by
          rw [htaken, Function.update_of_ne ho, hwaits, ht]
        exact .inr ⟨other, entry, ht', he, hwaits ▸ htoken⟩
  case refine_5 =>
    refine (hlisted key hlist).symm.imp .inr fun hlist' => ⟨other, filter, key, ?_, ha, by rwa [hwaits], hlist'⟩
    rw [hwaits]
    exact howed other filter key hm ha hlist

-- The task adds the entries of a wait.
theorem register {wait : Wait} (h : Watched protocol task state (.reasoned wait.list wait.token) wakes)
    (hg : Guarded task (state.tasks task) (.reasoned wait.list wait.token) wakes)
    (hw : wait.list ≠ .futex → protocol.waits wait.list wait.keys wait.condition) :
    Watched protocol task
      { state.setQueue wait.list (· ++ wait.entries task) with waits := update state.waits task wait }
      (.registered wait) wakes := by
  have htoken := hg.token wait.token rfl
  have hlimit : (WaitPc.reasoned wait.list wait.token).limit (state.tasks task).waitToken = wait.token := htoken
  refine ⟨h.taken, fun other he => ?_, fun list entry hl he hm => ?_, fun ht => ?_, nofun, nofun,
    fun ht thread entry _ hx he htok => ?_, fun _ key hk => .inl ?_, nofun⟩
  case refine_1 => simpa [WaitPc.active] using he
  case refine_2 =>
    show entry.token < (state.tasks task).waitToken + 1
    by_cases hnew : list = wait.list ∧ entry ∈ wait.entries task
    case pos =>
      obtain ⟨_, -, rfl⟩ := List.mem_map.mp hnew.2
      simp [htoken]
    case neg =>
      have hold : entry ∈ state.queues list ∨ ∃ thread, state.taken thread = some (list, entry) := by
        refine hm.imp_left fun hm => ?_
        by_cases hlist : list = wait.list
        case pos =>
          have hown : entry ∉ wait.entries task := fun hm => hnew ⟨hlist, hm⟩
          simpa [WaitState.setQueue, hlist, hown] using hm
        case neg => simpa [WaitState.setQueue, hlist] using hm
      have := h.fresh list entry hl he hold
      omega
  case refine_5 =>
    simp only [WaitState.Listed, Function.update_self] at hk ⊢
    simp only [WaitState.setQueue, Function.update_self]
    exact List.mem_append_right _ (List.mem_map_of_mem hk)
  all_goals
    have hl := ht.2
    simp only [Function.update_self] at hl
  case refine_3 => simpa using hw hl
  case refine_4 =>
    simp only [Function.update_self] at hx htok
    have := h.fresh wait.list entry hl he (.inr ⟨thread, hx⟩)
    omega

-- A step of the task itself.
theorem own (h : Watched protocol task state pc wakes) (hg : Guarded task (state.tasks task) pc wakes)
    (hf : WaitFlow protocol isKernel task pc i b pc') (hx : machine.exec task i state = some (b, state')) :
    Watched protocol task state' pc' wakes := by
  have hreads := (exec_runs hx).reads
  have hw := congrFun (exec_runs hx).tasks task
  have hasleep := h.asleep
  have hwait := h.wait
  -- The steps that leave the entries alone.
  have hframe (hi : Waitless i b) := @frame _ _ _ _ pc' _ _ wakes wakes h ((exec_runs hx).alike task hi)
    (fun _ _ hc => hc) fun _ _ _ _ hd => .inl hd
  cases hf
  case register wait hwaits =>
    cases hx
    exact h.register hg fun hl => (hwaits.resolve_left fun hw => hl hw.1).2
  case removeOld =>
    cases hx
    exact h.idle rfl (fun _ _ hm => mem_of_setQueue List.filter_sublist hm) rfl id le_rfl nofun
  case resumedRemove | withdraw | remove =>
    cases hx
    exact h.idle rfl (fun _ _ hm => mem_of_setQueue removeEntries_sublist hm) rfl id le_rfl nofun
  case recheckSome =>
    obtain rfl : state = state' := (Prod.mk.inj (Option.some.inj hx)).2
    exact h.idle rfl (fun _ _ hm => hm) rfl id le_rfl fun _ _ => hreads ▸ rfl
  case evaluate | timeout | check | reasonAgain | publish | recheckNone | switch | notReady =>
    simp only [writes, Option.elim, Function.update_self, Bool.false_eq_true, if_false] at hw
    refine hframe trivial (fun _ he => he) (by simp only [hw, WaitPc.limit, le_refl]) nofun ?_ (fun _ => ?_) ?_
    case refine_1 =>
      rw [hw]
      first | exact hasleep | exact fun _ _ => hreads | exact nofun
    case refine_2 =>
      simp only [WaitState.Woken, hw]
      first | exact fun hm => hm | exact fun hm => hm.imp_right fun hm => hm.1.elim
    case refine_3 => first | exact fun _ => .inl trivial | exact fun _ => .inr (hwait _ rfl ▸ hreads)
  all_goals
    simp only [writes, Option.elim, Function.update_self] at hw
    exact hframe trivial nofun (by simp only [hw, WaitPc.limit, le_refl]) nofun nofun nofun nofun

omit [DecidableEq τ] in
theorem token (h : Watched protocol task state pc wakes) (hg : Guarded task (state.tasks task) pc wakes)
    (hp : pc.active.isSome) : (state.tasks task).waitToken = (state.waits task).token := by
  obtain ⟨wait, hw⟩ := Option.isSome_iff_exists.mp hp
  rw [h.wait wait hw]
  refine hg.token wait.token ?_
  cases pc <;> simp_all [WaitPc.active, WaitPc.token]

-- A waker drops its token, which is stale. The token of the wait never is.
theorem stale {other : τ} {token : Nat} (h : Watched protocol task state pc wakes)
    (hg : Guarded task (state.tasks task) pc wakes)
    (hx : machine.exec thread (compareToken other token) state = some (false, state'))
    (hc : ∀ token', (wakes thread).Carries task token' → other = task ∧ token = token') :
    Watched protocol task state' pc (update wakes thread .idle) := by
  have hreads := (exec_runs hx).reads
  simp only [machine] at hx
  split at hx <;> cases hx
  refine h.hands (.of_eq rfl) rfl rfl rfl (by simp) (fun _ _ hm => hm) (fun _ => .inl) (fun _ _ _ hm _ _ => hm)
    fun ht entry hx he htok => ?_
  obtain ⟨rfl, rfl⟩ := hc _ (h.taken thread _ entry hx he)
  rw [Reads, h.token hg ht.1, htok] at hreads
  simp [sameToken] at hreads

-- A step of a waker.
theorem wake {wake wake' : WakePc τ} (h : Watched protocol task state pc wakes)
    (hg : Guarded task (state.tasks task) pc wakes) (hw : wakes thread = wake) (hf : WakeFlow wake i b wake')
    (hx : machine.exec thread i state = some (b, state')) :
    Watched protocol task state' pc (update wakes thread wake') := by
  have hs := hg.wakeStep hw hf hx
  have hreads := (exec_runs hx).reads
  have he := congrFun (exec_runs hx).tasks task
  have hstage {stage : LockStage} (he : wake = .locked task stage) := hg.stage thread stage (hw.trans he)
  cases hf
  case stale => exact h.stale hg hx (by rw [hw]; exact fun _ hc => hc)
  case unlock other =>
    cases hx
    refine h.hands hs rfl rfl rfl nofun (fun _ _ hm => hm) (fun _ => .inl) (fun _ _ _ hm _ _ => hm)
      fun ht entry hx he htok => ?_
    have hc := h.taken thread _ entry hx he
    rw [hw] at hc
    exact h.done ht thread entry (hw.trans (by rw [show other = task from hc])) hx he htok
  case sawNone other =>
    refine h.free thread _ ((exec_runs hx).alike task trivial) hs (by rw [hw]; exact fun _ hc => hc)
      fun hp _ hc _ => .inr (.inr ?_)
    rw [hw] at hc
    obtain rfl : other = task := hc
    -- The reason is there until the status has been published.
    have hreason := hg.reason
    refine ⟨?_, he ▸ hstage rfl⟩
    cases pc <;> first
      | trivial
      | exact absurd (hreason trivial) (by simp [show (state.tasks other).blockReason = none from hreads])
  case recordEarly other _ | record other _ =>
    refine h.free thread _ ((exec_runs hx).alike task trivial) hs (by rw [hw]; exact fun _ hc => hc)
      fun _ _ hc _ => .inr (.inl ?_)
    rw [hw] at hc
    obtain rfl : other = task := hc
    simp only [writes, Option.elim, Function.update_self] at he
    rw [he]
    rfl
  all_goals
    refine h.free thread _ ((exec_runs hx).alike task trivial) hs ?_ ?_
    all_goals rw [hw]
    case refine_1 => first | exact fun _ hc => hc | exact fun _ hc => hc.1 | exact fun _ hc => hc.elim
    case refine_2 => first | exact fun _ _ hc => hc.elim | exact nofun

-- A waker takes an entry.
theorem takeSome {list : WaitList} {filter : WakeFilter} {entry : WaitEntry τ}
    (h : Watched protocol task state pc wakes) (hidle : wakes thread = .idle)
    (hx : machine.exec thread (takeWaiter list filter) state = some (some entry, state')) :
    Watched protocol task state' pc (update wakes thread (.took entry.task entry.token)) := by
  simp only [machine, takeWaiterExec, Option.some.injEq] at hx
  split at hx <;> cases hx
  case h_1 hfind =>
    refine h.hands (.of_eq rfl) rfl rfl rfl (fun _ _ he => ?_) (fun _ _ hm => mem_of_setQueue List.eraseP_sublist hm)
      (fun key hk => ?_) (fun _ _ _ hm _ _ => hm) fun _ other ht he _ => ?_
    case refine_1 =>
      cases he
      exact ⟨rfl, List.mem_of_find?_eq_some hfind⟩
    case refine_2 =>
      by_cases hlist : (state.waits task).list = list
      case neg => exact .inl (by simpa [WaitState.Listed, WaitState.setQueue, hlist] using hk)
      case pos =>
        have hk : ⟨task, (state.waits task).token, key⟩ ∈ state.queues list := by rwa [← hlist]
        rcases mem_eraseP_or_eq hfind hk with hm | he
        · exact .inl (by simpa [WaitState.Listed, WaitState.setQueue, hlist] using hm)
        · subst he
          exact .inr ⟨thread, ⟨task, _, key⟩, by simp [hlist, WaitState.setQueue], rfl, rfl⟩
    case refine_3 =>
      have hc := h.taken thread _ other ht he
      rw [hidle] at hc
      exact hc.elim

-- A waker finds no entry, and owes this wake no longer.
theorem takeNone {list : WaitList} {filter : WakeFilter} (h : Watched protocol task state pc wakes)
    (hidle : wakes thread = .idle)
    (hx : machine.exec thread (takeWaiter list filter) state = some (none, state')) :
    Watched protocol task state' pc (update wakes thread .idle) := by
  simp only [machine, takeWaiterExec, Option.some.injEq] at hx
  split at hx <;> cases hx
  case h_2 hfind =>
    refine h.hands (.of_eq rfl) rfl rfl rfl (by simp) (fun _ _ hm => hm) (fun _ => .inl)
      (fun other filter' key hm ha hk => ?_) fun _ entry ht he _ => ?_
    case refine_1 =>
      by_cases ho : other = thread
      case neg => simpa [ho] using hm
      case pos =>
        -- The filter that finds nothing is not the one that accepts the entry.
        have hne : ((state.waits task).list, filter') ≠ (list, filter) := by
          intro he
          cases he
          exact absurd ha (by simpa using List.find?_eq_none.mp hfind _ hk)
        subst ho
        simpa using (List.mem_erase_of_ne hne).mpr hm
    case refine_2 =>
      have hc := h.taken thread _ entry ht he
      rw [hidle] at hc
      exact hc.elim

-- The memory changes.
theorem change {f : Memory → Memory} {due : List (WaitList × WakeFilter)}
    (h : Watched protocol task state pc wakes) (hcov : protocol.Covers) (hf : protocol.changes f due)
    (hnone : state.owed thread = []) :
    Watched protocol task { state with memory := f state.memory, owed := update state.owed thread due } pc wakes := by
  refine h.step h.taken (fun _ he => he) h.fresh h.seen h.asleep (fun _ => rfl) fun _ ht =>
    ⟨h.done ht, fun _ _ => .inl, id, .inl, fun hc => ?_, fun ⟨other, filter, key, hm, ha, hk, hlist⟩ => .inr ?_⟩
  case refine_1 =>
    by_cases hc' : (state.waits task).condition (f state.memory) = .ok true
    case pos => exact .inl hc'
    case neg =>
      obtain ⟨filter, hm, key, hk, ha⟩ := hcov _ _ _ f due (h.known ht) hf state.memory hc hc'
      rcases h.listed ht key hk with hlist | hmet
      · exact .inr (.inr ⟨thread, filter, key, by simpa using hm, ha, hk, hlist⟩)
      · exact .inr (.inl hmet)
  case refine_2 =>
    have ho : other ≠ thread := by
      rintro rfl
      simp [hnone] at hm
    exact ⟨other, filter, key, by simpa [ho] using hm, ha, hk, hlist⟩

end Watched

variable {pcs : τ → Pc τ}

-- What holds of a user task, wherever the threads are.
structure WakeupInv (protocol : WaitProtocol) (task : τ) (state : WaitState τ) (pcs : τ → Pc τ) : Prop where
  guarded : Guarded task (state.tasks task) (pcs task).wait fun thread => (pcs thread).wake
  watched : Watched protocol task state (pcs task).wait fun thread => (pcs thread).wake
  owed : ∀ thread, state.owed thread = (pcs thread).owed

omit [DecidableEq τ] in
theorem Watched.attended (h : Watched protocol task state pc wakes)
    (hg : Guarded task (state.tasks task) pc wakes) (hb : (state.tasks task).status = .blocked) :
    state.Attended task := by
  have hp := hg.blocked hb
  have hactive (ho : (state.tasks task).waitOutcome = none) : pc.active.isSome ∧ pc.Evaluated := by
    cases pc
    case unpublishing wait => exact absurd (h.seen wait rfl) (by simp [ho])
    all_goals first | exact hp.elim | exact ⟨rfl, trivial⟩
  have hmet (ho : (state.tasks task).waitOutcome = none) (hm : state.Met task pc) : state.Waking task := by
    refine hm.resolve_left fun hw => ?_
    rcases hw with hw | hw
    · simp [ho] at hw
    · exact hw.2 hb
  refine ⟨fun hc => ?_, fun hl ho key hk => ?_, fun hl ho hc => ?_⟩
  case refine_1 =>
    have hcurrent := hg.current
    have hasleep := h.asleep
    cases pc <;> first | exact hp.elim | exact hasleep trivial hb | exact absurd (hcurrent trivial) (by simp [hc])
  case refine_2 => exact (h.listed ⟨(hactive ho).1, hl⟩ key hk).imp id (hmet ho)
  case refine_3 =>
    rcases h.due ⟨(hactive ho).1, hl⟩ (hactive ho).2 with hd | hd | hd
    · exact absurd hd hc
    · exact .inl (hmet ho hd)
    · exact .inr hd

theorem WakeupInv.of_update {pc' : Pc τ}
    (hg : Guarded task (state.tasks task) (update pcs thread pc' task).wait
      (update (fun other => (pcs other).wake) thread pc'.wake))
    (hw : Watched protocol task state (update pcs thread pc' task).wait
      (update (fun other => (pcs other).wake) thread pc'.wake))
    (ho : ∀ other, state.owed other = update (fun other => (pcs other).owed) thread pc'.owed other) :
    WakeupInv protocol task state (update pcs thread pc') := by
  have hupdate {α : Type} (f : Pc τ → α) :
      (fun other => f (update pcs thread pc' other)) = update (fun other => f (pcs other)) thread (f pc') := by
    funext other
    by_cases ht : other = thread
    case pos => simp [ht]
    case neg => simp [ht]
  refine ⟨?_, ?_, fun other => (ho other).trans (congrFun (hupdate Pc.owed) other).symm⟩
  case refine_1 => rwa [hupdate Pc.wake]
  case refine_2 => rwa [hupdate Pc.wake]

theorem wakeup_keeps (hcov : protocol.Covers) (hu : isKernel task = false) :
    FlowKeeps protocol isKernel (WakeupInv protocol task) fun _ _ _ _ => True := by
  intro β thread i b pc' state state' pcs ⟨hg, hw, ho⟩ _ hf hx
  generalize hpc : pcs thread = pc at hf
  have hidle (hp : pc.wake = .idle) : (pcs thread).wake = .idle := hpc ▸ hp
  have hsame (hp : pc'.wake = pc.wake) :
      update (fun other => (pcs other).wake) thread pc'.wake = fun other => (pcs other).wake := by
    rw [hp, ← hpc]
    exact Function.update_eq_self _ _
  have hwait (hp : pc'.wait = pc.wait) : (update pcs thread pc' task).wait = (pcs task).wait := by
    by_cases ht : task = thread
    case pos => rw [ht, Function.update_self, hp, hpc]
    case neg => rw [Function.update_of_ne ht]
  have howed (hi : ¬Owes i) (hp : pc'.owed = pc.owed) (other : τ) :
      state'.owed other = update (fun other => (pcs other).owed) thread pc'.owed other := by
    rw [(exec_runs hx).owed hi, ho, hp, ← hpc, Function.update_eq_self]
  -- A thread that is no waker leaves the task alone.
  have hguarded (hi : ∀ write ∈ writes thread i b, write.1 ≠ task) (hp : pc.wake = .idle)
      (hl : ∀ stage, pc'.wake ≠ .locked task stage) :
      Guarded task (state'.tasks task) (pcs task).wait (update (fun other => (pcs other).wake) thread pc'.wake) := by
    rw [exec_other hi hx]
    refine hg.congr fun other stage => ?_
    by_cases ht : other = thread
    case pos => simp [ht, hidle hp, hl]
    case neg => simp [ht]
  have hwatched (ha : Alike task state state') (hs : WakeStep (state.tasks task) (state'.tasks task))
      (hp : pc.wake = .idle) :
      Watched protocol task state' (pcs task).wait (update (fun other => (pcs other).wake) thread pc'.wake) := by
    refine hw.free thread pc'.wake ha hs (fun _ hc => ?_) fun _ _ hc => ?_
    all_goals
      rw [hidle hp] at hc
      exact hc.elim
  have hnext (hp : pc'.wait = pc.wait)
      (hg : Guarded task (state'.tasks task) (pcs task).wait (update (fun other => (pcs other).wake) thread pc'.wake))
      (hw : Watched protocol task state' (pcs task).wait (update (fun other => (pcs other).wake) thread pc'.wake))
      (ho : ∀ other, state'.owed other = update (fun other => (pcs other).owed) thread pc'.owed other) :
      WakeupInv protocol task state' (update pcs thread pc') :=
    .of_update ((hwait hp).symm ▸ hg) ((hwait hp).symm ▸ hw) ho
  cases hf
  case wait hf =>
    have howed := howed (by cases hf <;> exact id) rfl
    by_cases ht : task = thread
    case pos =>
      subst ht
      have hg' := (show (pcs task).wait = _ by rw [hpc]) ▸ hg
      have hw' := (show (pcs task).wait = _ by rw [hpc]) ▸ hw
      refine .of_update ?_ ?_ howed
      all_goals rw [hsame rfl, Function.update_self]
      case refine_1 => exact hg'.own hu hf hx
      case refine_2 => exact hw'.own hg' hf hx
    case neg =>
      have hi : ∀ write ∈ writes thread i b, write.1 ≠ task := by cases hf <;> simp [writes, Ne.symm ht]
      refine .of_update ?_ ?_ howed
      all_goals rw [Function.update_of_ne ht]
      case refine_1 => exact hguarded hi rfl nofun
      case refine_2 => exact hwatched (hf.alike ht hx) (.of_eq (exec_other hi hx)) rfl
  case wake hf =>
    exact hnext rfl (hg.wake (by rw [hpc]) hf hx) (hw.wake hg (by rw [hpc]) hf hx)
      (howed (by cases hf <;> exact id) rfl)
  case free hi hp =>
    have he : ∃ unblockedPending, state'.tasks task = { state.tasks task with unblockedPending } := by
      cases hi
      case setUnblockedPending other pending =>
        by_cases ht : other = task
        case pos => exact ⟨pending, by simpa [writes, ht] using congrFun (exec_runs hx).tasks task⟩
        case neg => exact ⟨_, exec_other (by simp [writes, ht]) hx⟩
      all_goals exact ⟨_, exec_other (by simp [writes]) hx⟩
    obtain ⟨_, he⟩ := he
    refine hnext rfl ?_ ?_ (howed (by cases hi <;> exact id) rfl)
    case refine_1 =>
      rw [hsame rfl, he]
      exact hg.move rfl rfl id hg.user hg.reason hg.token hg.current
    case refine_2 =>
      exact hwatched ((exec_runs hx).alike task (by cases hi <;> trivial)) (he ▸ ⟨rfl, .inl rfl, .inl rfl⟩) hp
  case takeNone list filter =>
    refine hnext rfl (hguarded (by simp [writes]) rfl nofun) (hw.takeNone (hidle rfl) hx) fun other => ?_
    simp only [machine, takeWaiterExec, Option.some.injEq] at hx
    split at hx <;> cases hx
    simp only [funext ho, hpc]
  case takeSome list filter entry =>
    refine hnext rfl (hguarded (by simp [writes]) rfl (by simp)) (hw.takeSome (hidle rfl) hx) fun other => ?_
    simp only [machine, takeWaiterExec, Option.some.injEq] at hx
    split at hx <;> cases hx
    refine (ho other).trans ?_
    by_cases ht : other = thread
    case pos => simp [ht, hpc]
    case neg => simp [ht]
  case change f wakes hf =>
    cases hx
    refine hnext rfl ?_ ?_ fun other => by simp only [funext ho]
    all_goals rw [hsame rfl]
    case refine_1 => exact hg
    case refine_2 => exact hw.change hcov hf (by rw [ho, hpc])
  case stalePending =>
    exact hnext rfl (hguarded (by simp [writes]) rfl (by simp))
      (hw.stale hg hx (by simp [hidle, WakePc.Carries])) (howed id rfl)
  case acceptPending | expire | requeue | woke =>
    exact hnext rfl (hguarded (by simp [writes]) rfl (by simp))
      (hwatched ((exec_runs hx).alike task trivial) (.of_eq (exec_other (by simp [writes]) hx)) rfl) (howed id rfl)

omit [DecidableEq τ] in
theorem WaitState.Initial.wakeup (h : state.Initial) :
    WakeupInv protocol task state fun _ => ⟨.out false, .idle, [], [], none⟩ := by
  obtain ⟨token, pending, ht⟩ := h.tasks task
  refine ⟨⟨?_, nofun, ?_, ?_, nofun, nofun, nofun, ?_⟩,
    ⟨?_, nofun, ?_, nofun, nofun, nofun, nofun, nofun, nofun⟩, h.owed⟩
  all_goals simp [ht, h.taken, h.queues]

variable {config config' : Config (WaitInstr τ) (WaitState τ) τ}

-- Wherever the tasks and the wakers are, no wake is lost to a user task.
theorem no_lost_wakeup (hc : WaitConfig protocol isKernel config) (hcov : protocol.Covers)
    (hr : Config.Reachable machine (fun _ _ _ => True) config config') :
    ∀ task, isKernel task = false → (config'.state.tasks task).status = .blocked → config'.state.Attended task := by
  intro task hu hb
  have hkeeps : FlowKeeps protocol isKernel (WakeupInv protocol task) fun _ _ _ _ => True := wakeup_keeps hcov hu
  obtain ⟨pcs, hinv, _⟩ := flow_sound @hkeeps hc hc.initial.wakeup (fun _ _ _ _ _ _ _ => trivial) hr
  exact hinv.watched.attended hinv.guarded hb

-- A wait for the word at 0 to change, and the change that ends it.
def wordProtocol : WaitProtocol where
  waits list keys condition := list = .io ∧ keys = [.key ⟨0, 0⟩] ∧ condition = fun memory => .ok (memory 0 = 0)
  changes f wakes := f = (update · 0 1) ∧ wakes = [(.io, .key ⟨0, 0⟩)]

theorem wordProtocol_covers : wordProtocol.Covers := by
  rintro _ _ _ _ _ ⟨rfl, rfl, rfl⟩ ⟨rfl, rfl⟩ memory _ _
  exact ⟨.key ⟨0, 0⟩, List.mem_singleton_self _, .key ⟨0, 0⟩, List.mem_singleton_self _, rfl⟩

def wordWaiter : Config (WaitInstr Bool) (WaitState Bool) Bool where
  state := bothReturned.state
  prog
    | false => syscall false (sleepUntilKeysIfWithReason false ⟨false, false⟩ .io [⟨0, 0⟩] none .io
        fun memory => .ok (memory 0 = 0)) >>= fun _ => .ret ()
    | true  => notify (update · 0 1) [(.io, .key ⟨0, 0⟩)] >>= fun _ => .ret ()

theorem wordWaiter_calls : WaitConfig wordProtocol (fun _ => false) wordWaiter where
  initial := (bothReturned_calls fun _ => false).initial
  calls
    | false => .call (.sleep false .io [⟨0, 0⟩] none .io _ ⟨rfl, rfl, rfl⟩ (by decide)) fun _ => .done
    | true  => .call (.notify _ _ ⟨rfl, rfl⟩) fun _ => .done

-- The word has changed while the task sleeps, and the wake is about to come.
theorem wordWaiter_attended : ∃ config : Config (WaitInstr Bool) (WaitState Bool) Bool,
    (config.state.tasks false).status = .blocked ∧ config.state.memory 0 = 1 ∧ config.state.Attended false := by
  obtain ⟨config, hr, hseen⟩ := Config.Reachable.of_run_view machine wordWaiter
    (fun config => ((config.state.tasks false).status, config.state.memory 0)) (.blocked, 1)
    (List.replicate 16 false ++ [true]) rfl
  have hs : (config.state.tasks false).status = .blocked := congrArg Prod.fst hseen
  exact ⟨config, hs, congrArg Prod.snd hseen, no_lost_wakeup wordWaiter_calls wordProtocol_covers hr false rfl hs⟩

end WllOs
