import WllOs.Task.Theorems.Flow
import WllOs.Task.Theorems.FutexQueue

namespace WllOs

open Function (update)
open WaitInstr Protocol

variable {τ : Type} {protocol : WaitProtocol} {isKernel : τ → Bool} {thread task : τ} {β : Type}
variable {state state' : WaitState τ} {queue queue' : List (WaitEntry τ)} {pcs : τ → Pc τ}

-- A wait whose entry is not in the queue.
def Gone (task : τ) (token : Nat) (queue : List (WaitEntry τ)) : Prop :=
  ∀ entry ∈ queue, entry.task = task → ¬sameToken entry.token token

-- What a task in a wait for a futex knows of its entries: it has none when it is about to register, and the one of its
-- wait is gone when it is about to return.
def WaitPc.Unlisted (task : τ) (queue : List (WaitEntry τ)) : WaitPc → Prop
  | emptied list | counting list | counted list _ | cleared list _ | reasoned list _ =>
    list = .futex → ∀ entry ∈ queue, entry.task ≠ task
  | removing list token _ | done list token _ => list = .futex → Gone task token queue
  | withdrawn wait | abandoned wait | removed wait | timeless wait => wait.list = .futex → Gone task wait.token queue
  | _ => True

-- The entries of the task are for waits that it has had an entry for before.
def Known (task : τ) (queue queue' : List (WaitEntry τ)) : Prop :=
  ∀ entry ∈ queue', entry.task = task → ∃ other ∈ queue, other.task = task ∧ other.token = entry.token

-- Entries are removed, and the ones that are left may be moved to other futexes.
def Shrinks (queue queue' : List (WaitEntry τ)) : Prop :=
  (queue'.map fun entry => (entry.task, entry.token)).Sublist (queue.map fun entry => (entry.task, entry.token))

namespace Shrinks

theorem of_sublist (h : queue'.Sublist queue) : Shrinks queue queue' :=
  h.map _

theorem refl (queue : List (WaitEntry τ)) : Shrinks queue queue :=
  List.Sublist.refl _

theorem known (h : Shrinks queue queue') (task : τ) : Known task queue queue' := by
  intro entry he ht
  have hmem := h.subset (List.mem_map_of_mem he)
  obtain ⟨other, ho, heq⟩ := List.mem_map.mp hmem
  simp only [Prod.mk.injEq] at heq
  exact ⟨other, ho, heq.1.trans ht, heq.2⟩

theorem nodup (h : Shrinks queue queue') (hn : (queue.map (·.task)).Nodup) : (queue'.map (·.task)).Nodup := by
  have hs := h.map Prod.fst
  simp only [List.map_map] at hs
  exact hn.sublist hs

end Shrinks

theorem WaitPc.Unlisted.known {pc : WaitPc} (h : pc.Unlisted task queue) (hk : Known task queue queue') :
    pc.Unlisted task queue' := by
  have hgone {token : Nat} (h : Gone task token queue) : Gone task token queue' := by
    intro entry he ht
    obtain ⟨other, ho, htask, htoken⟩ := hk entry he ht
    exact htoken ▸ h other ho htask
  cases pc
  case emptied | counting | counted | cleared | reasoned =>
    intro hl entry he ht
    obtain ⟨other, ho, htask, _⟩ := hk entry he ht
    exact h hl other ho htask
  case removing | done | withdrawn | abandoned | removed | timeless => exact fun hl => hgone (h hl)
  all_goals trivial

theorem takeEntries_sublist {filter : WakeFilter} {n : Nat} : (takeEntries filter queue n).2.Sublist queue := by
  induction queue generalizing n
  case nil => exact .slnil
  case cons entry queue hi =>
    simp only [takeEntries]
    split
    case isTrue => exact hi.cons _
    case isFalse => exact hi.cons_cons _

theorem requeueEntries_waits {filter : WakeFilter} {uaddr key n : Nat} :
    (requeueEntries filter uaddr key queue n).1.map (fun entry => (entry.task, entry.token)) =
      queue.map fun entry => (entry.task, entry.token) := by
  induction queue generalizing n
  case nil => rfl
  case cons entry queue hi =>
    simp only [requeueEntries]
    split <;> simp [hi]

theorem removeEntries_sublist {list : WaitList} {own : WaitEntry τ → Bool} :
    (removeEntries list own queue).Sublist queue := by
  cases list
  case futex => exact List.eraseP_sublist
  all_goals exact List.filter_sublist

variable [DecidableEq τ]

omit [DecidableEq τ] in
-- The queue of futexes after a change of some queue.
theorem setQueue_shrinks {list : WaitList} {f : List (WaitEntry τ) → List (WaitEntry τ)}
    (h : list = .futex → Shrinks (state.queues .futex) (f (state.queues .futex))) :
    Shrinks (state.queues .futex) ((state.setQueue list f).queues .futex) := by
  by_cases hl : list = .futex
  case pos =>
    subst hl
    simpa [WaitState.setQueue] using h rfl
  case neg => simpa [WaitState.setQueue, Ne.symm hl] using Shrinks.refl _

def Registers : {β : Type} → WaitInstr τ β → Prop
  | _, pushWaiters _ _ => True
  | _, _               => False

-- Only a registration adds entries.
theorem exec_shrinks {i : WaitInstr τ β} {b : β} (hx : machine.exec thread i state = some (b, state'))
    (hi : ¬Registers i) : Shrinks (state.queues .futex) (state'.queues .futex) := by
  cases i
  case pushWaiters => exact absurd trivial hi
  case removeWaiters =>
    cases hx
    exact setQueue_shrinks fun _ => .of_sublist removeEntries_sublist
  case removeTaskWaiters =>
    cases hx
    exact setQueue_shrinks fun _ => .of_sublist List.filter_sublist
  case takeWaiter list filter =>
    simp only [machine, takeWaiterExec, Option.some.injEq] at hx
    split at hx <;> cases hx
    case h_1 => exact setQueue_shrinks fun _ => .of_sublist List.eraseP_sublist
    case h_2 => exact .refl _
  case requeue =>
    cases hx
    refine setQueue_shrinks fun _ => ?_
    simp only [Shrinks, requeueEntries_waits]
    exact takeEntries_sublist.map _
  case storeReason =>
    cases hx
    rw [storeReasonExec_queues]
    exact .refl _
  case lockStatus | status | setStatus =>
    simp only [machine, unlocked] at hx
    split at hx <;> cases hx
    exact .refl _
  case compareToken =>
    simp only [machine] at hx
    split at hx <;> cases hx <;> exact .refl _
  case setStatusIf =>
    simp only [machine, unlocked] at hx
    split at hx <;> split at hx <;> cases hx <;> exact .refl _
  all_goals
    cases hx
    exact .refl _

-- The queue has one entry of a task at most, and a wait that is over has none.
structure FutexInv (state : WaitState τ) (pcs : τ → Pc τ) : Prop where
  once : ((state.queues .futex).map (·.task)).Nodup
  unlisted : ∀ task, (pcs task).wait.Unlisted task (state.queues .futex)

theorem gone_removeEntries {token : Nat} (h : (queue.map (·.task)).Nodup) :
    Gone task token (removeEntries .futex (fun entry => entry.task = task && sameToken entry.token token) queue) := by
  intro entry he ht hs
  induction queue
  case nil => cases he
  case cons head queue hi =>
    simp only [List.map_cons, List.nodup_cons] at h
    simp only [removeEntries, List.eraseP_cons, cond_eq_ite] at he
    split at he
    case isTrue hown =>
      simp only [Bool.and_eq_true, decide_eq_true_eq] at hown
      exact h.1 (hown.1 ▸ ht ▸ List.mem_map_of_mem he)
    case isFalse hown =>
      cases he
      case head => simp [ht, hs] at hown
      case tail he => exact hi h.2 he

-- A step of a wait other than its registration, and what the task knows of its entries afterwards.
theorem WaitFlow.unlisted {wait wait' : WaitPc} {i : WaitInstr τ β} {b : β}
    (hf : WaitFlow protocol isKernel thread wait i b wait') (hi : ¬Registers i)
    (honce : ((state.queues .futex).map (·.task)).Nodup) (hu : wait.Unlisted thread (state.queues .futex))
    (hx : machine.exec thread i state = some (b, state')) : wait'.Unlisted thread (state'.queues .futex) := by
  have hs := exec_shrinks hx hi
  have hremoved {list : WaitList} {token : Nat} {removed : Bool}
      (hx : machine.exec thread (removeWaiters list thread token) state = some (removed, state')) (hl : list = .futex) :
      Gone thread token (state'.queues .futex) := by
    subst hl
    cases hx
    simpa [WaitState.setQueue] using gone_removeEntries honce
  cases hf
  case register => exact absurd trivial hi
  case removeOld =>
    intro hl
    subst hl
    cases hx
    simp [WaitState.setQueue]
  case resumedRemove => exact hremoved hx
  case withdraw => exact hremoved hx
  case remove => exact hremoved hx
  all_goals first
    | exact hu.known (hs.known thread)
    | trivial

-- An entry is added when the task has none.
theorem FutexInv.register {wait : Wait} {pc' : Pc τ} (h : FutexInv state pcs)
    (hp : (pcs thread).wait = .reasoned wait.list wait.token) (hk : wait.list = .futex → ∃ key, wait.keys = [key])
    (hpc : pc'.wait = .registered wait) :
    FutexInv { state.setQueue wait.list (· ++ wait.entries thread) with waits := update state.waits thread wait }
      (update pcs thread pc') := by
  by_cases hl : wait.list = .futex
  case neg =>
    have hq : (state.setQueue wait.list (· ++ wait.entries thread)).queues .futex = state.queues .futex :=
      Function.update_of_ne (Ne.symm hl) _ _
    refine ⟨by simpa [hq] using h.once, fun task => ?_⟩
    by_cases ht : task = thread
    case pos => simp [ht, hpc, WaitPc.Unlisted]
    case neg => simpa [ht, hq] using h.unlisted task
  case pos =>
    obtain ⟨key, hkey⟩ := hk hl
    have hnone : ∀ entry ∈ state.queues .futex, entry.task ≠ thread := by
      have hu := h.unlisted thread
      rw [hp] at hu
      exact hu hl
    have hq : (state.setQueue wait.list (· ++ wait.entries thread)).queues .futex =
        state.queues .futex ++ [⟨thread, wait.token, key⟩] := by
      simp [WaitState.setQueue, Wait.entries, hl, hkey]
    constructor
    case once =>
      simp only [hq, List.map_append, List.map_cons, List.map_nil]
      exact h.once.append (by simp) (by simpa using hnone)
    case unlisted =>
      intro task
      by_cases ht : task = thread
      case pos => simp [ht, hpc, WaitPc.Unlisted]
      case neg =>
        simp only [hq, ne_eq, ht, not_false_eq_true, Function.update_of_ne]
        refine (h.unlisted task).known fun entry he htask => ?_
        cases List.mem_append.mp he
        case inl he => exact ⟨entry, he, htask, rfl⟩
        case inr he =>
          cases List.mem_singleton.mp he
          exact absurd htask (Ne.symm ht)

-- All other steps of the task itself, and the ones of the wakers.
theorem FutexInv.shrinks {pc' : Pc τ} (h : FutexInv state pcs) (hs : Shrinks (state.queues .futex) (state'.queues .futex))
    (hu : pc'.wait.Unlisted thread (state'.queues .futex)) : FutexInv state' (update pcs thread pc') := by
  refine ⟨hs.nodup h.once, fun task => ?_⟩
  by_cases ht : task = thread
  case pos => simpa [ht] using hu
  case neg => simpa [ht] using (h.unlisted task).known (hs.known task)

theorem futex_keeps : FlowKeeps protocol isKernel FutexInv fun _ _ _ _ => True := by
  intro β thread i b pc' state state' pcs hinv _ hf hx
  have hu := hinv.unlisted thread
  -- A waker is not where it registers, and goes on with its own wait as before.
  have hwaker (hi : ¬Registers i) (hw : pc'.wait = (pcs thread).wait) : FutexInv state' (update pcs thread pc') :=
    hinv.shrinks (exec_shrinks hx hi) (hw ▸ hu.known ((exec_shrinks hx hi).known thread))
  generalize hpc : pcs thread = pc at hf
  cases hf
  case wait hf =>
    by_cases hi : Registers i
    case neg => exact hinv.shrinks (exec_shrinks hx hi) (hf.unlisted hi hinv.once (by simpa [hpc] using hu) hx)
    case pos =>
      cases hf
      case register wait hw =>
        cases hx
        refine hinv.register (by simp [hpc]) (fun hl => ?_) rfl
        cases hw
        case inl hw => exact hw.2
        case inr hw => exact absurd hl hw.1
      all_goals cases hi
  case free hi _ => exact hwaker (by cases hi <;> exact id) (by rw [hpc])
  case wake hw => exact hwaker (by cases hw <;> exact id) (by rw [hpc])
  all_goals exact hwaker id (by rw [hpc])

variable {config config' : Config (WaitInstr τ) (WaitState τ) τ}

-- A task has one entry at most, and none for a wait for a futex that has come to an end, wherever it has been moved.
theorem futexQueue_reachable {allowed : WaitState τ → (τ → Option (Σ β, WaitInstr τ β)) → τ → Prop}
    (hc : WaitConfig protocol isKernel config) (hr : Config.Reachable machine allowed config config') :
    ((config'.state.queues .futex).map (·.task)).Nodup ∧
      ∀ task token result, config'.heads task = some ⟨_, returned task .futex (some token) result⟩ →
        ∀ entry ∈ config'.state.queues .futex, entry.task = task → ¬sameToken entry.token token := by
  have hinit : FutexInv config.state fun _ => ⟨.out false, .idle, [], [], none⟩ :=
    ⟨by simp [hc.initial.queues], fun _ => trivial⟩
  have hkeeps : FlowKeeps protocol isKernel FutexInv fun _ _ _ _ => True := futex_keeps
  obtain ⟨pcs, hinv, hfits, _⟩ := flow_sound @hkeeps hc hinit (fun _ _ _ _ _ _ _ => trivial) hr
  refine ⟨hinv.once, fun task token result hhead => ?_⟩
  have hheads := (hfits task).heads
  rw [hhead] at hheads
  obtain ⟨outcome, hpc⟩ := hheads
  have hu := hinv.unlisted task
  rw [hpc] at hu
  exact hu rfl

-- What each operation does to the queue when nothing interferes, and that all states that are reached are of the kind
-- that this is said of. A wait that comes to an end leaves no entry behind, even if it has been moved.
theorem futexQueue_exact {allowed : WaitState τ → (τ → Option (Σ β, WaitInstr τ β)) → τ → Prop}
    (hc : WaitConfig protocol isKernel config) (hr : Config.Reachable machine allowed config config') :
    (∀ (thread : τ) (state : WaitState τ) (call : FutexCall), state.FutexQuiet →
      (call.Correct thread state ↔ call.Sound state)) ∧
    ((∀ task, (config'.state.tasks task).statusLock = none) → config'.state.FutexQuiet) ∧
    ∀ task token result, config'.heads task = some ⟨_, returned task .futex (some token) result⟩ →
      ∀ entry ∈ config'.state.queues .futex, entry.task = task → ¬sameToken entry.token token := by
  obtain ⟨honce, hgone⟩ := futexQueue_reachable hc hr
  exact ⟨fun _ _ call hq => call.correct_iff hq, fun hu => ⟨hu, honce⟩, hgone⟩

-- Two tasks wait for the futex at 4096. The timer of the first one has expired, and it has not run since.
def expiredWaiter : WaitState Bool where
  tasks task := ⟨if task then .blocked else .ready, none, if task then some .futex else none,
    if task then none else some .timedOut, 1, false, false⟩
  queues
    | .futex => [⟨false, 1, .futex 4096 0 (BitVec.allOnes 64)⟩, ⟨true, 1, .futex 4096 0 (BitVec.allOnes 64)⟩]
    | _      => []
  timers := []
  memory _ := 0
  timeUs := 100
  history := []
  waits task := ⟨.futex, 1, [.futex 4096 0 (BitVec.allOnes 64)], if task then none else some 100, fun _ => .ok true⟩
  taken _ := none
  waking _ := none
  owed _ := []
  scan _ := none

theorem expiredWaiter_quiet : expiredWaiter.FutexQuiet where
  unlocked _ := rfl
  once := by decide

-- The requeue of the waiters at 4096 to 8192 that wakes one of them.
def requeueOne : FutexRequeue :=
  ⟨1, 1, .ok (), none, fun _ => .ok 0, .ok (4096, 0), .ok (8192, 0)⟩

-- The expired waiter is counted as woken, and nobody is.
theorem requeueOne_wakes_nobody : ¬∀ (thread : Bool) (state : WaitState Bool) (call : FutexCall), state.FutexQuiet →
    call.Correct thread state := by
  intro h
  have hcorrect := h true expiredWaiter (.requeue requeueOne) expiredWaiter_quiet
  have hsound := (FutexCall.correct_iff expiredWaiter_quiet _).mp hcorrect 4096 0 8192 0 rfl
  revert hsound
  decide_cbv

def bothReturned : Config (WaitInstr Bool) (WaitState Bool) Bool :=
  ⟨{ expiredWaiter with tasks := fun _ => ⟨.running, none, none, none, 1, true, false⟩, queues := fun _ => [] },
    fun _ => .ret ()⟩

theorem bothReturned_calls (isKernel : Bool → Bool) :
    WaitConfig ⟨fun _ _ _ => False, fun _ _ => False⟩ isKernel bothReturned where
  initial := ⟨fun _ => ⟨1, false, rfl⟩, fun _ => rfl, rfl, rfl, fun _ => rfl, fun _ => rfl, fun _ => rfl, fun _ => rfl⟩
  calls _ := .done

-- A wake passes over the expired waiter.
theorem expiredWaiter_skipped :
    (FutexCall.wake 4096 0 1 (BitVec.allOnes 64)).Correct true expiredWaiter ∧
      bothReturned.state.FutexQuiet :=
  have hr : Config.Reachable machine (fun _ _ _ => True) bothReturned bothReturned := .refl
  have hexact := futexQueue_exact (bothReturned_calls fun _ => false) hr
  ⟨(hexact.1 true expiredWaiter _ expiredWaiter_quiet).mpr trivial, hexact.2.1 fun _ => rfl⟩

end WllOs
