import WllOs.Fs.EventFd
import WllOs.Fs.Theorems.Objects

namespace WllOs.Fs

namespace EventFdState

variable {eventFd eventFd' : EventFdState} {value : BitVec 64} {bytes : List UInt8} {n : Nat} {wake : Bool}

theorem fromLeBytes_counter (h : eventFd.counter < COUNTER_MAX) : fromLeBytes (leBytes 8 eventFd.counter) = eventFd.counter := by
  rw [fromLeBytes_leBytes]
  exact Nat.mod_eq_of_lt (h.trans (by decide))

theorem fromLeBytes_value (value : BitVec 64) : fromLeBytes ((leBytes 8 value.toNat).take 8) = value.toNat := by
  rw [List.take_of_length_le (by simp [length_leBytes]), fromLeBytes_leBytes]
  exact Nat.mod_eq_of_lt value.isLt

theorem read_eq_ok (h : eventFd.read 8 = (.ok bytes, eventFd', wake)) (hb : eventFd.counter < COUNTER_MAX) :
    0 < eventFd.counter ∧ fromLeBytes bytes = (if eventFd.semaphore then 1 else eventFd.counter) ∧
      eventFd'.counter + fromLeBytes bytes = eventFd.counter ∧ wake = true := by
  simp only [read, Nat.lt_irrefl, if_false] at h
  split at h
  case isTrue => cases h
  case isFalse hc =>
    have hpos : 0 < eventFd.counter := Nat.pos_of_ne_zero hc
    split at h <;> cases h
    case isTrue hs =>
      have hone : fromLeBytes (leBytes 8 1) = 1 := by decide
      exact ⟨hpos, by simp [hs, hone], by simp only [hone]; omega, rfl⟩
    case isFalse hs => exact ⟨hpos, by simp [hs, fromLeBytes_counter hb], by simp [fromLeBytes_counter hb], rfl⟩

theorem read_of_pos (h : 0 < eventFd.counter) : ∃ bytes eventFd', eventFd.read 8 = (.ok bytes, eventFd', true) := by
  simp only [read, Nat.lt_irrefl, h.ne', if_false]
  split <;> exact ⟨_, _, rfl⟩

theorem write_eq_ok (h : eventFd.write (leBytes 8 value.toNat) = (.ok n, eventFd', wake))
    (hb : eventFd.counter < COUNTER_MAX) : eventFd.Fits (.write value) ∧
      wake = decide (eventFd.counter = 0 ∧ value.toNat ≠ 0) ∧ eventFd'.counter = eventFd.counter + value.toNat := by
  simp only [write, length_leBytes, Nat.lt_irrefl, if_false, fromLeBytes_value] at h
  split at h
  case isTrue => cases h
  case isFalse =>
    split at h <;> cases h
    case isFalse hroom =>
      refine ⟨?_, rfl, rfl⟩
      show eventFd.counter + value.toNat < COUNTER_MAX
      omega

-- A write succeeds if its value fits.
theorem write_of_fits (h : eventFd.Fits (.write value)) :
    ∃ n eventFd' wake, eventFd.write (leBytes 8 value.toNat) = (.ok n, eventFd', wake) := by
  have hlt : eventFd.counter + value.toNat < COUNTER_MAX := h
  have hv : value.toNat ≠ COUNTER_MAX := by omega
  have hroom : ¬value.toNat > COUNTER_MAX - 1 - eventFd.counter := by omega
  simp only [write, length_leBytes, Nat.lt_irrefl, if_false, fromLeBytes_value, hv, hroom]
  exact ⟨_, _, _, rfl⟩

end EventFdState

namespace EventFdSystem

open Function (update)

variable {τ : Type} [DecidableEq τ] {s s' : EventFdSystem τ} {t t' : τ} {act : EventFdAct} {call : EventFdCall}
  {event : EventFdEvent} {pc : EventFdPc τ} {waiter : EventFdWaiter τ}

@[simp]
theorem goto_self : (s.goto t pc).pc t = pc :=
  Function.update_self ..

theorem goto_ne (h : t' ≠ t) : (s.goto t pc).pc t' = s.pc t' :=
  Function.update_of_ne h ..

-- A task that has not been woken since it has entered the queue.
def Waits (s : EventFdSystem τ) (t : τ) (call : EventFdCall) : Prop :=
  (s.pc t = .recheck call ∨ s.pc t = .asleep call) ∧ s.outcome t = none

def entry (s : EventFdSystem τ) (t : τ) (call : EventFdCall) : EventFdWaiter τ :=
  ⟨t, s.token t, call.event⟩

-- The entry of the task is in the queue or on its way to it. If the call fits, a task is about to look for it.
def Notified (s : EventFdSystem τ) (t : τ) (call : EventFdCall) : Prop :=
  (s.entry t call ∈ s.waiters ∧
    (s.pc t = .asleep call → s.eventFd.Fits call → ∃ t', (s.pc t').wakes = some call.event)) ∨
  ∃ t' other, s.pc t' = .deliver other (s.entry t call)

structure Inv (s : EventFdSystem τ) : Prop where
  bounded : s.eventFd.counter < EventFdState.COUNTER_MAX
  conserved : s.written = s.returned + s.eventFd.counter
  notified : ∀ t call, s.Waits t call → s.Notified t call

omit [DecidableEq τ] in
theorem deliver_wakes {other : EventFdEvent} (h : s.pc t = .deliver other waiter) : (s.pc t).wakes = some other := by
  rw [h]
  rfl

-- A step of a task that is not about to wake others.
structure PlainStep (s s' : EventFdSystem τ) (t : τ) : Prop where
  plain : (s.pc t).wakes = none
  pc : ∀ t' ≠ t, s'.pc t' = s.pc t'
  token : ∀ t' ≠ t, s'.token t' = s.token t'
  outcome : ∀ t' ≠ t, s'.outcome t' = s.outcome t'
  waiters : ∀ waiter ∈ s.waiters, waiter.task ≠ t → waiter ∈ s'.waiters
  fits : ∀ call, s'.eventFd.Fits call → s.eventFd.Fits call ∨ (s'.pc t).wakes = some call.event
  self : ∀ call, s'.Waits t call → s'.Notified t call

theorem PlainStep.notifies (h : PlainStep s s' t) (hi : ∀ t call, s.Waits t call → s.Notified t call) (t' : τ)
    (call : EventFdCall) (hw : s'.Waits t' call) : s'.Notified t' call := by
  by_cases ht : t' = t
  case pos =>
    subst ht
    exact h.self call hw
  case neg =>
    have hentry : s'.entry t' call = s.entry t' call := by simp [entry, h.token t' ht]
    have hother {t'' : τ} {event : EventFdEvent} (hp : (s.pc t'').wakes = some event) : t'' ≠ t := by
      rintro rfl
      rw [h.plain] at hp
      cases hp
    have hwaits : s.Waits t' call := by simpa [Waits, h.pc t' ht, h.outcome t' ht] using hw
    obtain ⟨hmem, hwake⟩ | ⟨t'', other, hp⟩ := hi t' call hwaits
    case inl =>
      refine .inl ⟨hentry ▸ h.waiters _ hmem ht, fun hp hf => ?_⟩
      rw [h.pc t' ht] at hp
      obtain hf | hwaker := h.fits call hf
      case inr => exact ⟨t, hwaker⟩
      case inl =>
        obtain ⟨t'', hwaker⟩ := hwake hp hf
        exact ⟨t'', h.pc t'' (hother hwaker) ▸ hwaker⟩
    case inr => exact .inr ⟨t'', other, by rw [h.pc t'' (hother (deliver_wakes hp)), hp, hentry]⟩

-- The steps of a task that is not about to wake others leave the entries of the others in the queue.
theorem mem_removeWaiters (h : waiter ∈ s.waiters) (ht : waiter.task ≠ t) : waiter ∈ (s.removeWaiters t).waiters := by
  simp [removeWaiters, h, ht]

theorem mem_enterQueue (h : waiter ∈ s.waiters) (ht : waiter.task ≠ t) :
    waiter ∈ (s.enterQueue t event).waiters := by
  simp [enterQueue, h, ht]

omit [DecidableEq τ] in
-- A step after which the task does not wait.
theorem PlainStep.of_leave (hp : (s.pc t).wakes = none) (hpc : ∀ t' ≠ t, s'.pc t' = s.pc t')
    (htoken : s'.token = s.token) (ho : ∀ t' ≠ t, s'.outcome t' = s.outcome t')
    (hw : ∀ waiter ∈ s.waiters, waiter.task ≠ t → waiter ∈ s'.waiters)
    (hf : ∀ call, s'.eventFd.Fits call → s.eventFd.Fits call ∨ (s'.pc t).wakes = some call.event)
    (hleft : ∀ call, ¬s'.Waits t call) : PlainStep s s' t :=
  ⟨hp, hpc, fun _ _ => by rw [htoken], ho, hw, hf, fun call hwaits => absurd hwaits (hleft call)⟩

omit [DecidableEq τ] in
theorem not_waits (h : s.pc t = pc) (hr : ∀ call, pc ≠ .recheck call) (ha : ∀ call, pc ≠ .asleep call)
    (call : EventFdCall) : ¬s.Waits t call := by
  rintro ⟨hp | hp, _⟩
  case inl => exact hr call (h.symm.trans hp)
  case inr => exact ha call (h.symm.trans hp)

-- A step that changes the place of a task only.
theorem Inv.goto (hi : s.Inv) (hp : (s.pc t).wakes = none) (hr : ∀ call, pc ≠ .recheck call)
    (ha : ∀ call, pc ≠ .asleep call) : (s.goto t pc).Inv where
  bounded := hi.bounded
  conserved := hi.conserved
  notified := PlainStep.notifies (t := t) (.of_leave hp (fun _ ht => goto_ne ht) rfl (fun _ _ => rfl) (fun _ h _ => h)
    (fun _ h => .inl h) (not_waits goto_self hr ha)) hi.notified

theorem read_inv {writable : Bool} (hi : s.Inv) (hm : s.Meets t .run) (hp : s.pc t = .attempt (.read writable))
    (h : s.advance t (.attempt (.read writable)) = some s') : s'.Inv := by
  have hplain : (s.pc t).wakes = none := by rw [hp]; rfl
  simp only [advance] at h
  split at h <;> cases h
  case h_1 => exact hi.goto hplain (by simp) (by simp)
  case h_2 bytes eventFd wakeWriters hread =>
    obtain ⟨hpos, _, hsum, rfl⟩ := EventFdState.read_eq_ok hread hi.bounded
    have hw : writable = true := by
      cases writable
      case true => rfl
      case false => exact absurd ((hm rfl).1 hp) hpos.ne'
    have hstep : PlainStep s ({ s with eventFd, returned := s.returned + if writable then fromLeBytes bytes else 0 }.goto t
        (.wake .writable)) t := by
      refine .of_leave hplain (fun _ ht => goto_ne ht) rfl (fun _ _ => rfl) (fun _ h _ => h) (fun call hf => ?_)
        (not_waits goto_self (by simp) (by simp))
      cases call
      case read => exact .inl hpos
      case write => exact .inr (by rw [goto_self]; rfl)
    have hb := hi.bounded
    have hc := hi.conserved
    constructor
    case bounded => show eventFd.counter < _; omega
    case conserved =>
      show s.written = s.returned + (if writable then fromLeBytes bytes else 0) + eventFd.counter
      simp only [hw, if_true]
      omega
    case notified => exact hstep.notifies hi.notified

theorem write_inv {value : BitVec 64} (hi : s.Inv) (hp : s.pc t = .attempt (.write value))
    (h : s.advance t (.attempt (.write value)) = some s') : s'.Inv := by
  have hplain : (s.pc t).wakes = none := by rw [hp]; rfl
  simp only [advance] at h
  split at h <;> cases h
  case h_1 => exact hi.goto hplain (by simp) (by simp)
  case h_2 => exact hi.goto hplain (by simp) (by simp)
  case h_3 eventFd wakeReaders hwrite =>
    obtain ⟨hfits, hwake, hsum⟩ := EventFdState.write_eq_ok hwrite hi.bounded
    have hstep : PlainStep s ({ s with eventFd, written := s.written + value.toNat }.goto t
        (if wakeReaders then .wake .readable else .idle)) t := by
      refine .of_leave hplain (fun _ ht => goto_ne ht) rfl (fun _ _ => rfl) (fun _ h _ => h) (fun call hf => ?_)
        (not_waits goto_self (by split <;> simp) (by split <;> simp))
      rw [goto_self]
      cases call
      case write other =>
        have hlt : eventFd.counter + other.toNat < EventFdState.COUNTER_MAX := hf
        exact .inl (show s.eventFd.counter + other.toNat < _ by omega)
      case read =>
        by_cases hc : s.eventFd.counter = 0
        case neg => exact .inl (Nat.pos_of_ne_zero hc)
        case pos =>
          have hpos : 0 < eventFd.counter := hf
          have hv : value.toNat ≠ 0 := by omega
          exact .inr (by simp [hwake, hc, hv, EventFdPc.wakes, EventFdCall.event])
    have hc := hi.conserved
    constructor
    case bounded =>
      show eventFd.counter < _
      rw [hsum]
      exact hfits
    case conserved => show s.written + value.toNat = s.returned + eventFd.counter; omega
    case notified => exact hstep.notifies hi.notified

theorem leaveQueue_inv {outcome : WllOs.WaitOutcome} (hi : s.Inv) (hp : (s.pc t).wakes = none) :
    (s.leaveQueue t call outcome).Inv where
  bounded := hi.bounded
  conserved := hi.conserved
  notified := by
    refine PlainStep.notifies (t := t) (.of_leave hp (fun _ ht => goto_ne ht) rfl
      (fun _ ht => Function.update_of_ne ht ..) (fun _ h ht => mem_removeWaiters h ht) (fun _ h => .inl h)
      (not_waits goto_self (by split <;> simp) (by split <;> simp))) hi.notified

theorem enroll_inv (hi : s.Inv) (hp : s.pc t = .enroll call) :
    ((s.enterQueue t call.event).goto t (.recheck call)).Inv := by
  have hstep : PlainStep s ((s.enterQueue t call.event).goto t (.recheck call)) t := by
    refine ⟨by rw [hp]; rfl, fun _ ht => goto_ne ht, fun _ ht => Function.update_of_ne ht .., fun _ _ => rfl,
      fun _ h ht => mem_enterQueue h ht, fun _ h => .inl h, fun other hw => ?_⟩
    obtain ⟨hw | hw, _⟩ := hw
    case inr => simp at hw
    case inl =>
      simp only [goto_self, EventFdPc.recheck.injEq] at hw
      subst hw
      exact .inl ⟨by simp [entry, enterQueue, EventFdSystem.goto], fun h => by simp at h⟩
  exact ⟨hi.bounded, hi.conserved, hstep.notifies hi.notified⟩

theorem recheck_inv (hi : s.Inv) (hm : s.Meets t .run) (hp : s.pc t = .recheck call)
    (h : s.advance t (.recheck call) = some s') : s'.Inv := by
  have hplain : (s.pc t).wakes = none := by rw [hp]; rfl
  simp only [advance] at h
  split at h <;> cases h
  case isFalse =>
    have hstep : PlainStep s ((s.removeWaiters t).goto t (.attempt call)) t :=
      .of_leave hplain (fun _ ht => goto_ne ht) rfl (fun _ _ => rfl) (fun _ h ht => mem_removeWaiters h ht)
        (fun _ h => .inl h) (not_waits goto_self (by simp) (by simp))
    exact ⟨hi.bounded, hi.conserved, hstep.notifies hi.notified⟩
  case isTrue hblock =>
    -- The call does not fit, which is what the test says of a read, and what is assumed of a write.
    have hfull : ¬s.eventFd.Fits call := by
      intro hf
      cases call
      case read =>
        have hc : s.eventFd.counter = 0 := by simpa [EventFdState.wouldBlock, EventFdCall.event] using hblock
        exact (Nat.ne_of_gt hf) hc
      case write value =>
        have hc : s.eventFd.counter ≠ 0 := by simpa [EventFdState.wouldBlock, EventFdCall.event] using hblock
        exact hc ((hm rfl).2 value hp hf)
    refine ⟨hi.bounded, hi.conserved, PlainStep.notifies (t := t) ⟨hplain, fun _ ht => goto_ne ht, fun _ _ => rfl,
      fun _ _ => rfl, fun _ h _ => h, fun _ h => .inl h, fun other hw => ?_⟩ hi.notified⟩
    obtain ⟨hw | hw, ho⟩ := hw
    case inl => simp at hw
    case inr =>
      simp only [goto_self, EventFdPc.asleep.injEq] at hw
      subst hw
      obtain ⟨hmem, _⟩ | ⟨t', other, hd⟩ := hi.notified t call ⟨.inl hp, ho⟩
      case inl => exact .inl ⟨hmem, fun _ hf => absurd hf hfull⟩
      case inr =>
        refine .inr ⟨t', other, ?_⟩
        have hne : t' ≠ t := by
          rintro rfl
          rw [hp] at hd
          cases hd
        exact (goto_ne hne).trans hd

-- A step of a task that is about to wake others. It keeps hold of the entries that it takes, and looks on as long as it
-- may find some.
structure WakerStep (s s' : EventFdSystem τ) (t : τ) : Prop where
  pc : ∀ t' ≠ t, s'.pc t' = s.pc t'
  token : s'.token = s.token
  eventFd : s'.eventFd = s.eventFd
  outcome : ∀ t', s'.outcome t' = none → s.outcome t' = none
  left : ∀ call, ¬s'.Waits t call
  queue : ∀ waiter ∈ s.waiters, waiter ∈ s'.waiters ∨ ∃ event, s'.pc t = .deliver event waiter
  held : ∀ t' call event, s'.Waits t' call → s.pc t ≠ .deliver event (s.entry t' call)
  wakes : ∀ waiter ∈ s.waiters, (s.pc t).wakes = some waiter.event → (s'.pc t).wakes = some waiter.event

theorem WakerStep.inv (h : WakerStep s s' t) (hi : s.Inv) (hw : s'.written = s.written)
    (hr : s'.returned = s.returned) : s'.Inv where
  bounded := by simpa [h.eventFd] using hi.bounded
  conserved := by simpa [h.eventFd, hw, hr] using hi.conserved
  notified t' call hwaits := by
    have ht : t' ≠ t := by
      rintro rfl
      exact h.left call hwaits
    have hentry : s'.entry t' call = s.entry t' call := by simp [entry, h.token]
    have hbefore : s.Waits t' call := ⟨by simpa [h.pc t' ht] using hwaits.1, h.outcome t' hwaits.2⟩
    obtain ⟨hmem, hwake⟩ | ⟨t'', event, hd⟩ := hi.notified t' call hbefore
    case inr =>
      have hne : t'' ≠ t := by
        rintro rfl
        exact h.held t' call event hwaits hd
      exact .inr ⟨t'', event, by rw [h.pc t'' hne, hd, hentry]⟩
    case inl =>
      obtain hmem' | ⟨event, hd⟩ := h.queue _ hmem
      case inr => exact .inr ⟨t, event, hentry ▸ hd⟩
      case inl =>
        refine .inl ⟨hentry ▸ hmem', fun hp hf => ?_⟩
        rw [h.pc t' ht] at hp
        rw [h.eventFd] at hf
        obtain ⟨t'', hwaker⟩ := hwake hp hf
        by_cases hne : t'' = t
        case pos =>
          subst hne
          exact ⟨t'', h.wakes _ hmem hwaker⟩
        case neg => exact ⟨t'', by rw [h.pc t'' hne, hwaker]⟩

theorem mem_eraseP_or {α : Type} {p : α → Bool} {l : List α} {a b : α} (hf : l.find? p = some b) (h : a ∈ l) :
    a ∈ l.eraseP p ∨ a = b := by
  induction l
  case nil => cases h
  case cons head l hi =>
    by_cases hp : p head
    case pos =>
      simp only [List.find?_cons, hp, Option.some.injEq] at hf
      subst hf
      exact (List.mem_cons.mp h).symm.imp_left fun h => by simpa [hp] using h
    case neg =>
      simp only [List.find?_cons, hp] at hf
      obtain rfl | h := List.mem_cons.mp h
      case inl => exact .inl (by simp [hp])
      case inr => exact (hi hf h).imp_left fun h => by simp [hp, h]

theorem wake_inv (hi : s.Inv) (hp : s.pc t = .wake event) (h : s.advance t (.wake event) = some s') : s'.Inv := by
  have hheld (t' : τ) (call : EventFdCall) (other : EventFdEvent) : s.pc t ≠ .deliver other (s.entry t' call) := by
    simp [hp]
  simp only [advance] at h
  split at h <;> cases h
  case h_1 hnone =>
    -- No entry is left that the task would have to wake.
    have hother : ∀ waiter ∈ s.waiters, waiter.event ≠ event := by simpa using hnone
    refine WakerStep.inv (t := t) ⟨fun _ ht => goto_ne ht, rfl, rfl, fun _ h => h, not_waits goto_self (by simp) (by simp),
      fun _ h => .inl h, fun t' call other _ => hheld t' call other, fun waiter hm hw => ?_⟩ hi rfl rfl
    rw [hp] at hw
    exact absurd (Option.some.inj hw).symm (hother waiter hm)
  case h_2 waiter hfound =>
    have hstep : WakerStep s ({ s with waiters := s.waiters.eraseP (·.event = event) }.goto t (.deliver event waiter)) t := by
      refine ⟨fun _ ht => goto_ne ht, rfl, rfl, fun _ h => h, not_waits goto_self (by simp) (by simp),
        fun other hm => ?_, fun t' call other _ => hheld t' call other, fun _ _ hw => ?_⟩
      case refine_1 =>
        obtain hm | rfl := mem_eraseP_or hfound hm
        case inl => exact .inl hm
        case inr => exact .inr ⟨event, goto_self⟩
      case refine_2 =>
        rw [hp] at hw
        rw [goto_self]
        exact hw
    exact hstep.inv hi rfl rfl

-- The task whose entry has been taken does not wait any more, or has had the entry for an earlier wait.
theorem deliver_inv (hi : s.Inv) (hp : s.pc t = .deliver event waiter)
    (h : s.advance t (.deliver event waiter) = some s') : s'.Inv := by
  have hwakes {s' : EventFdSystem τ} (hw : s'.pc t = .wake event) (other : EventFdWaiter τ)
      (h : (s.pc t).wakes = some other.event) : (s'.pc t).wakes = some other.event := by
    rw [hp] at h
    rw [hw]
    exact h
  have hawaits {t' : τ} {call : EventFdCall} (hw : s.Waits t' call) : s.awaits t' = true := by
    obtain ⟨hw | hw, ho⟩ := hw
    case inl => simp [awaits, hw]
    case inr => simp [awaits, hw, ho]
  simp only [advance] at h
  split at h <;> cases h
  case isTrue hreached =>
    have hstep : WakerStep s ((s.setOutcome waiter.task (some .woken)).goto t (.wake event)) t := by
      refine ⟨fun _ ht => goto_ne ht, rfl, rfl, fun t' ho => ?_, not_waits goto_self (by simp) (by simp),
        fun _ h => .inl h, fun t' call other hw hd => ?_, fun other _ => hwakes goto_self other⟩
      case refine_1 =>
        by_cases ht : t' = waiter.task
        case pos => simp [ht, setOutcome, EventFdSystem.goto] at ho
        case neg => simpa [ht, setOutcome, EventFdSystem.goto] using ho
      case refine_2 =>
        rw [hp] at hd
        cases hd
        have ho := hw.2
        simp [entry, setOutcome, EventFdSystem.goto] at ho
    exact hstep.inv hi rfl rfl
  case isFalse hmissed =>
    refine WakerStep.inv (t := t) ⟨fun _ ht => goto_ne ht, rfl, rfl, fun _ h => h, not_waits goto_self (by simp) (by simp),
      fun _ h => .inl h, fun t' call other hw hd => ?_, fun other _ => hwakes goto_self other⟩ hi rfl rfl
    rw [hp] at hd
    cases hd
    have hne : t' ≠ t := by
      rintro rfl
      exact not_waits goto_self (by simp) (by simp) call hw
    have hbefore : s.Waits t' call := ⟨by simpa [goto_ne hne] using hw.1, hw.2⟩
    exact hmissed ⟨by simp [entry, sameToken], hawaits hbefore⟩

theorem advance_inv (hi : s.Inv) (hm : s.Meets t .run) (h : s.advance t (s.pc t) = some s') : s'.Inv := by
  generalize hp : s.pc t = pc at h
  cases pc
  case idle => cases h
  case attempt call =>
    cases call
    case read writable => exact read_inv hi hm hp h
    case write value => exact write_inv hi hp h
  case test call =>
    have hplain : (s.pc t).wakes = none := by rw [hp]; rfl
    simp only [advance] at h
    split at h <;> cases h
    case isTrue => exact hi.goto hplain (by simp) (by simp)
    case isFalse => exact hi.goto hplain (by split <;> simp) (by split <;> simp)
  case enroll call =>
    simp only [advance] at h
    split at h <;> cases h
    case h_1 => exact leaveQueue_inv hi (by rw [hp]; rfl)
    case h_2 => exact enroll_inv hi hp
  case recheck call => exact recheck_inv hi hm hp h
  case asleep call =>
    simp only [advance, Option.map_eq_some_iff] at h
    obtain ⟨outcome, _, rfl⟩ := h
    exact leaveQueue_inv hi (by rw [hp]; rfl)
  case wake event => exact wake_inv hi hp h
  case deliver event waiter => exact deliver_inv hi hp h

-- A signal wakes a task, or keeps it from falling asleep.
theorem interrupt_inv (hi : s.Inv) (h : s.step t .interrupt = some s') : s'.Inv := by
  simp only [step] at h
  split at h
  case h_1 call hp =>
    cases h
    have hstep : PlainStep s ((s.removeWaiters t).goto t .idle) t :=
      .of_leave (by rw [hp]; rfl) (fun _ ht => goto_ne ht) rfl (fun _ _ => rfl) (fun _ h ht => mem_removeWaiters h ht)
        (fun _ h => .inl h) (not_waits goto_self (by simp) (by simp))
    exact ⟨hi.bounded, hi.conserved, hstep.notifies hi.notified⟩
  case h_2 call hp =>
    split at h <;> cases h
    have hstep : PlainStep s (s.setOutcome t (some .interrupted)) t := by
      refine .of_leave (by rw [hp]; rfl) (fun _ _ => rfl) rfl (fun _ ht => Function.update_of_ne ht ..) (fun _ h _ => h)
        (fun _ h => .inl h) fun call hw => ?_
      have ho := hw.2
      simp [setOutcome] at ho
    exact ⟨hi.bounded, hi.conserved, hstep.notifies hi.notified⟩
  case h_3 => cases h

theorem step_inv (hi : s.Inv) (hm : s.Meets t act) (h : s.step t act = some s') : s'.Inv := by
  cases act
  case start call =>
    simp only [step] at h
    split at h <;> cases h
    case isTrue hp => exact hi.goto (by rw [hp]; rfl) (by simp) (by simp)
  case run =>
    simp only [step] at h
    exact advance_inv hi hm h
  case restart =>
    simp only [step] at h
    split at h
    case h_1 call hp =>
      split at h <;> cases h
      exact hi.goto (by rw [hp]; rfl) (by simp) (by simp)
    case h_2 => cases h
  case interrupt => exact interrupt_inv hi h

omit [DecidableEq τ] in
theorem initial_inv {initval : BitVec 64} {semaphore nonblock : Bool} (h : initval ≠ BitVec.allOnes 64) :
    (initial initval semaphore nonblock : EventFdSystem τ).Inv where
  bounded := by
    have hne : initval.toNat ≠ 2 ^ 64 - 1 := fun he => h (BitVec.eq_of_toNat_eq (by simpa using he))
    have hlt := initval.isLt
    show initval.toNat < 2 ^ 64 - 1
    omega
  conserved := (Nat.zero_add _).symm
  notified t call hw := by
    obtain ⟨hw | hw, _⟩ := hw
    case inl => cases hw
    case inr => cases hw

theorem Inv.correct (hi : s.Inv) : s.Correct where
  bounded := hi.bounded
  conserved := hi.conserved
  reads t hp hpos := by
    obtain ⟨bytes, eventFd, hread⟩ := EventFdState.read_of_pos hpos
    have hvalue := (EventFdState.read_eq_ok hread hi.bounded).2.1
    have hs : s.step t .run =
        some ({ s with eventFd, returned := s.returned + fromLeBytes bytes }.goto t (.wake .writable)) := by
      simp [step, hp, advance, hread]
    exact ⟨_, hs, by rw [← hvalue]; rfl⟩
  writes t value hp hf := by
    obtain ⟨_, eventFd, wakeReaders, hwrite⟩ := EventFdState.write_of_fits hf
    have hs : s.step t .run = some ({ s with eventFd, written := s.written + value.toNat }.goto t
        (if wakeReaders then .wake .readable else .idle)) := by
      simp only [step, hp, advance, hwrite]
    exact ⟨_, hs, rfl⟩
  awake t call hp ho hf := by
    obtain ⟨hmem, hwake⟩ | ⟨t', other, hd⟩ := hi.notified t call ⟨.inr hp, ho⟩
    case inl => exact .inl ⟨s.entry t call, hmem, rfl, by simp [entry, sameToken], rfl, hwake hp hf⟩
    case inr => exact .inr ⟨t', other, s.entry t call, hd, rfl, by simp [entry, sameToken]⟩

theorem Reachable.of_run {initval : BitVec 64} {semaphore nonblock : Bool} {steps : List (τ × EventFdAct)}
    (hr : Reachable initval semaphore nonblock (fun _ _ _ => True) s) (h : s.run steps = some s') :
    Reachable initval semaphore nonblock (fun _ _ _ => True) s' := by
  induction steps generalizing s
  case nil =>
    cases h
    exact hr
  case cons head steps hi =>
    simp only [run, Option.bind_eq_some_iff] at h
    obtain ⟨next, hs, h⟩ := h
    exact hi (hr.step trivial hs) h

-- The writer finds the counter at its limit. A reader makes room for the value before the writer enters the queue.
def lateWriter : List (Bool × EventFdAct) :=
  [(true, .start (.write 1)), (true, .run), (false, .start (.read true)), (false, .run), (false, .run), (true, .run),
    (true, .run), (true, .run)]

end EventFdSystem

end WllOs.Fs
