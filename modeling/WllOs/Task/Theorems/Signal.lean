import WllOs.Library.Fallible
import WllOs.Task.Signal

namespace WllOs

theorem sanitizeMask_unblockable (mask : BitVec 64) : sanitizeMask mask &&& unblockableMask = 0 := by
  rw [sanitizeMask, BitVec.and_assoc, BitVec.and_comm (~~~unblockableMask), BitVec.and_not_self]
  exact BitVec.and_zero

variable {mask : BitVec 64} {signum signum' : Signum}

theorem signalBit_ne_zero (signum : Signum) : signalBit signum ≠ 0 := by
  intro h
  have hb : (BitVec.twoPow 64 (signum.val - 1)).getLsbD (signum.val - 1) = false :=
    (congrArg (·.getLsbD (signum.val - 1)) h).trans (BitVec.getLsbD_zero ..)
  rw [BitVec.getLsbD_twoPow] at hb
  have := signum.isLt
  simp only [MAX_SIGNAL] at this
  simp at hb
  omega

theorem mem_iff : mask &&& signalBit signum ≠ 0 ↔ mask.getLsbD (signum.val - 1) = true := by
  have he : mask &&& signalBit signum = if mask.getLsbD (signum.val - 1) then signalBit signum else 0 :=
    BitVec.and_twoPow mask _
  rw [he]
  cases mask.getLsbD (signum.val - 1)
  case false => simp
  case true => simpa using signalBit_ne_zero signum

theorem getLsbD_signalBit (h : validSignal signum) (h' : validSignal signum') :
    (signalBit signum).getLsbD (signum'.val - 1) = decide (signum' = signum) := by
  have hb : (signalBit signum).getLsbD (signum'.val - 1) =
      (decide (signum.val - 1 < 64) && decide (signum.val - 1 = signum'.val - 1)) := BitVec.getLsbD_twoPow ..
  have hl := signum.isLt
  simp only [validSignal, decide_eq_true_eq, MAX_SIGNAL, Fin.lt_def] at h h' hl
  rw [hb, Bool.eq_iff_iff]
  simp only [Bool.and_eq_true, decide_eq_true_eq, Fin.ext_iff]
  have h0 : (0 : Signum).val = 0 := rfl
  omega

theorem mem_or_signalBit (h : validSignal signum) (h' : validSignal signum') :
    (mask ||| signalBit signum) &&& signalBit signum' ≠ 0 ↔ mask &&& signalBit signum' ≠ 0 ∨ signum' = signum := by
  rw [mem_iff, mem_iff, BitVec.getLsbD_or, getLsbD_signalBit h h']
  simp

theorem mem_and_not_signalBit (h : validSignal signum) (h' : validSignal signum') :
    mask &&& ~~~signalBit signum &&& signalBit signum' ≠ 0 ↔ mask &&& signalBit signum' ≠ 0 ∧ signum' ≠ signum := by
  have hl := signum'.isLt
  simp only [MAX_SIGNAL] at hl
  rw [mem_iff, mem_iff, BitVec.getLsbD_and, BitVec.getLsbD_not, getLsbD_signalBit h h']
  simp
  omega

theorem lowestSignal_some (h : lowestSignal mask = some signum) :
    validSignal signum ∧ mask &&& signalBit signum ≠ 0 := by
  have hf := List.find?_some h
  simpa using hf

end WllOs

namespace WllOs.SignalActions

variable {actions : SignalActions} {signum signum' : Fin (MAX_SIGNAL + 1)}

theorem get_set {action : KernelSigAction} :
    (actions.set signum action).get signum' = if signum' = signum then action else actions.get signum' := by
  by_cases h : signum' = signum <;> simp [get, set, h]

theorem get_resetHandler : (actions.resetHandler signum).get signum' =
    if signum' = signum ∧ (actions.get signum').handler > SIG_IGN then DEFAULT_SIGACTION else actions.get signum' := by
  simp only [resetHandler]
  split
  case isTrue h =>
    rw [get_set]
    by_cases he : signum' = signum
    case pos => subst he; simp [h]
    case neg => simp [he]
  case isFalse h =>
    rw [if_neg]
    exact fun ⟨he, hg⟩ => h (he ▸ hg)

theorem get_foldl_resetHandler (signums : List (Fin (MAX_SIGNAL + 1))) :
    (signums.foldl resetHandler actions).get signum =
      if signum ∈ signums ∧ (actions.get signum).handler > SIG_IGN then DEFAULT_SIGACTION else actions.get signum := by
  induction signums generalizing actions
  case nil => simp
  case cons head signums hi =>
    rw [List.foldl_cons, hi, get_resetHandler]
    by_cases hh : signum = head
    case pos =>
      subst hh
      by_cases hg : (actions.get signum).handler > SIG_IGN
      case pos => simp [hg]
      case neg => simp [hg]
    case neg => simp [hh]

-- Exactly the caught signals get their default actions.
theorem get_resetHandlersForExec : actions.resetHandlersForExec.get signum =
    if 1 ≤ signum.val ∧ (actions.get signum).handler > SIG_IGN then DEFAULT_SIGACTION else actions.get signum := by
  rw [resetHandlersForExec, get_foldl_resetHandler]
  simp

theorem resetHandlersForExec_eq_self : actions.resetHandlersForExec = actions ↔
    ∀ signum : Fin (MAX_SIGNAL + 1), 1 ≤ signum.val → (actions.get signum).handler ≤ SIG_IGN := by
  constructor
  case mp =>
    intro h signum hs
    by_contra hg
    have he : (actions.get signum).handler = DEFAULT_SIGACTION.handler := by
      rw [← h, get_resetHandlersForExec, if_pos ⟨hs, BitVec.not_le.mp hg⟩]
    rw [he] at hg
    exact hg (by decide)
  case mpr =>
    intro h
    ext1
    funext signum
    exact get_resetHandlersForExec.trans (if_neg fun ⟨hs, hg⟩ => BitVec.not_le.mpr hg (h signum hs))

end WllOs.SignalActions

namespace WllOs.SignalState

open Function (update)

variable {state state' : SignalState} {records : Signum → Option PendingSignalInfo} {signum : Signum}
variable {info : PendingSignalInfo}

-- The state keeps the records, and neither of its masks blocks `SIGKILL` or `SIGSTOP`.
structure Agrees (records : Signum → Option PendingSignalInfo) (state : SignalState) : Prop where
  blocked : state.blocked &&& unblockableMask = 0
  suspended : ∀ mask, state.suspendOldMask = some mask → mask &&& unblockableMask = 0
  pending : ∀ signum, validSignal signum → records signum =
    if state.pending &&& signalBit signum ≠ 0 then some (state.pendingInfo signum) else none
  unqueued : ∀ signum, validSignal signum → records signum = none → state.pendingInfo signum = .empty

namespace Agrees

theorem of_pending (h : state.Agrees records) (hs : validSignal signum) (hp : state.pending &&& signalBit signum ≠ 0) :
    records signum = some (state.pendingInfo signum) :=
  (h.pending signum hs).trans (if_pos hp)

theorem forkFrom (mask : BitVec 64) : (forkFrom mask).Agrees fun _ => none where
  blocked := sanitizeMask_unblockable mask
  suspended _ h := by cases h
  pending _ _ := by simp [SignalState.forkFrom, new]
  unqueued _ _ _ := rfl

theorem new : new.Agrees fun _ => none where
  blocked := BitVec.zero_and
  suspended _ h := by cases h
  pending _ _ := by simp [SignalState.new]
  unqueued _ _ _ := rfl

-- The masks may change where nothing else does.
theorem masks (h : state.Agrees records) (hp : state'.pending = state.pending)
    (hi : state'.pendingInfo = state.pendingInfo) (hb : state'.blocked &&& unblockableMask = 0)
    (hs : ∀ mask, state'.suspendOldMask = some mask → mask &&& unblockableMask = 0) : state'.Agrees records where
  blocked := hb
  suspended := hs
  pending := by rw [hp, hi]; exact h.pending
  unqueued := by rw [hi]; exact h.unqueued

theorem queue (h : state.Agrees records) (hs : validSignal signum) :
    (state.queue signum info).Agrees (update records signum (some info)) where
  blocked := h.blocked
  suspended := h.suspended
  pending signum' hs' := by
    simp only [SignalState.queue, mem_or_signalBit hs hs']
    by_cases he : signum' = signum
    case pos => subst he; simp
    case neg => simpa [he] using h.pending signum' hs'
  unqueued signum' hs' hn := by
    simp only [SignalState.queue]
    by_cases he : signum' = signum
    case pos => subst he; simp at hn
    case neg => simpa [he] using h.unqueued signum' hs' (by simpa [he] using hn)

theorem clearPending (h : state.Agrees records) (hs : validSignal signum) :
    (state.clearPending signum).Agrees (update records signum none) where
  blocked := h.blocked
  suspended := h.suspended
  pending signum' hs' := by
    simp only [SignalState.clearPending, mem_and_not_signalBit hs hs']
    by_cases he : signum' = signum
    case pos => subst he; simp
    case neg => simpa [he] using h.pending signum' hs'
  unqueued signum' hs' hn := by
    simp only [SignalState.clearPending]
    by_cases he : signum' = signum
    case pos => subst he; simp
    case neg => simpa [he] using h.unqueued signum' hs' (by simpa [he] using hn)

theorem deliver (h : state.Agrees records) (hs : validSignal signum) (action : KernelSigAction) :
    (state.deliver signum action).snd.snd.Agrees (update records signum none) :=
  (h.clearPending hs).masks rfl rfl (sanitizeMask_unblockable _) fun _ hm => by cases hm

theorem sanitized (h : state.Agrees records) (mask : BitVec 64) :
    Agrees records { state with blocked := sanitizeMask mask } :=
  h.masks rfl rfl (sanitizeMask_unblockable mask) h.suspended

theorem suspend (h : state.Agrees records) (mask : BitVec 64) : (state.suspend mask).Agrees records :=
  h.masks rfl rfl (sanitizeMask_unblockable mask) fun _ hm => by cases hm; exact h.blocked

theorem resume (h : state.Agrees records) (err : SysErrNo) : (state.resume err).Agrees records := by
  simp only [SignalState.resume]
  split
  case isTrue => exact h
  case isFalse =>
    split
    case h_1 oldMask he => exact h.masks rfl rfl (h.suspended oldMask he) fun _ hm => by cases hm
    case h_2 => exact h

end Agrees

theorem sigprocmask_ok {how : Int} {set : Option (BitVec 64)} {sigsetSize : Nat} {copied : Except SysErrNo Unit}
    (h : state.sigprocmask how set sigsetSize copied = .ok state') :
    state' = state ∨ ∃ mask, state' = { state with blocked := sanitizeMask mask } := by
  have ⟨_, h⟩ := Fallible.guard_ok h
  have ⟨_, _, h⟩ := Fallible.bind_ok h
  cases set
  case none => cases h; exact .inl rfl
  case some mask =>
    dsimp only at h
    split at h
    case isTrue => cases h; exact .inr ⟨_, rfl⟩
    case isFalse =>
      split at h
      case isTrue => cases h; exact .inr ⟨_, rfl⟩
      case isFalse =>
        split at h
        case isTrue => cases h; exact .inr ⟨_, rfl⟩
        case isFalse => cases h

-- Whatever is in the frame.
theorem sigreturn_ok {frameSize : Nat} {frame : SignalFrame} (h : state.sigreturn frameSize frame = .ok state') :
    ∃ mask, state' = { state with blocked := sanitizeMask mask } := by
  simp only [sigreturn] at h
  split at h <;> cases h
  exact ⟨_, rfl⟩

theorem resume_pending (err : SysErrNo) : (state.resume err).pending = state.pending := by
  simp only [resume]
  split
  case isTrue => rfl
  case isFalse => split <;> rfl

theorem pendingHint_ne_zero (h : state.pending ≠ 0) : state.pendingHint ≠ 0 := by
  rw [pendingHint, if_pos h]
  exact Nat.one_ne_zero

end WllOs.SignalState
