import WllOs.Task.IntervalTimer

namespace WllOs

open Function (update)

namespace IntervalTimer

variable {timer : IntervalTimer} {nowUs deadlineUs : Nat}

-- The first point of a grid after a given time.
theorem isLeast_grid {interval start now : Nat} (hi : 0 < interval) (hs : start ≤ now) :
    IsLeast { time | now < time ∧ time ≡ start [MOD interval] } (start + interval * ((now - start) / interval + 1)) := by
  constructor
  case left =>
    have hlt := Nat.lt_mul_div_succ (now - start) hi
    refine ⟨by omega, ?_⟩
    simp [Nat.ModEq]
  case right =>
    rintro time ⟨hnow, hmod⟩
    obtain ⟨steps, he⟩ := (Nat.modEq_iff_dvd' (by omega)).mp hmod.symm
    have hlt : now - start < interval * steps := by omega
    have hsteps : (now - start) / interval < steps := Nat.div_lt_of_lt_mul hlt
    have hle : interval * ((now - start) / interval + 1) ≤ interval * steps := Nat.mul_le_mul_left interval hsteps
    omega

theorem fires_iff :
    (timer.expireAt nowUs).1 = true ↔ ∃ deadlineUs, timer.deadlineUs = some deadlineUs ∧ deadlineUs ≤ nowUs := by
  rw [expireAt]
  split
  case h_1 hd => simp [hd]
  case h_2 deadline hd =>
    split
    case isTrue hlt => simp [hd, hlt]
    case isFalse hle =>
      have hle : deadline ≤ nowUs := Nat.not_lt.mp hle
      split <;> simp [hd, hle]

theorem expireAt_due (hd : timer.deadlineUs = some deadlineUs) (hle : deadlineUs ≤ nowUs) :
    timer.expireAt nowUs = (true, { timer with
      deadlineUs := if timer.intervalUs = 0 then none
        else some (min (deadlineUs + timer.intervalUs * ((nowUs - deadlineUs) / timer.intervalUs + 1)) Usize.max) }) := by
  simp only [expireAt, hd, if_neg (Nat.not_lt.mpr hle)]
  split
  case isTrue => rfl
  case isFalse hi => rw [Usize.saturatingAdd_saturatingMul (Nat.pos_of_ne_zero hi)]

theorem expireAt_early (h : (timer.expireAt nowUs).1 = false) : (timer.expireAt nowUs).2 = timer := by
  cases hd : timer.deadlineUs
  case none => simp [expireAt, hd]
  case some deadline =>
    have hlt : nowUs < deadline := by
      by_contra hle
      simp [expireAt_due hd (Nat.not_lt.mp hle)] at h
    simp [expireAt, hd, hlt]

theorem expires (timer : IntervalTimer) (nowUs : Nat) : timer.Expires nowUs where
  fires := fires_iff
  early := expireAt_early
  oneShot hfires hi := by
    obtain ⟨deadlineUs, hd, hle⟩ := fires_iff.mp hfires
    simp [expireAt_due hd hle, hi]
  periodic deadlineUs hd hle hi := by
    refine ⟨_, isLeast_grid (Nat.pos_of_ne_zero hi) hle, ?_⟩
    rw [expireAt_due hd hle, if_neg hi]

-- An expiry arms no timer.
theorem expireAt_deadlineUs (h : (timer.expireAt nowUs).2.deadlineUs.isSome) : timer.deadlineUs.isSome := by
  cases hfires : (timer.expireAt nowUs).1
  case false => rwa [expireAt_early hfires] at h
  case true =>
    obtain ⟨deadlineUs, hd, _⟩ := fires_iff.mp hfires
    simp [hd]

end IntervalTimer

namespace IntervalTimers

variable {timers : IntervalTimers} {nowUs : Nat} {which : Fin 3}

theorem armed_iff : timers.armed ↔ ∃ which, (timers.get which).deadlineUs.isSome := by
  simp [armed, Vector.any_eq_true, IntervalTimer.nextDeadlineUs, Fin.exists_iff, Vector.get_eq_getElem]

theorem not_armed_empty : empty.armed = false := by decide_cbv

theorem get_expireAt : (timers.expireAt nowUs).2.get which = ((timers.get which).expireAt nowUs).2 := by
  simp [expireAt, Vector.get_eq_getElem]

theorem armed_of_expireAt (h : (timers.expireAt nowUs).2.armed) : timers.armed := by
  obtain ⟨which, hw⟩ := armed_iff.mp h
  rw [get_expireAt] at hw
  exact armed_iff.mpr ⟨which, IntervalTimer.expireAt_deadlineUs hw⟩

theorem mem_expireAt {deadlineUs : Nat} (hd : (timers.get which).deadlineUs = some deadlineUs) (hle : deadlineUs ≤ nowUs) :
    which ∈ (timers.expireAt nowUs).1 := by
  have hfires := IntervalTimer.fires_iff.mpr ⟨deadlineUs, hd, hle⟩
  simpa [expireAt] using hfires

theorem nextDeadlineUs_le {deadlineUs : Nat} (hd : (timers.get which).deadlineUs = some deadlineUs) :
    ∃ next, timers.nextDeadlineUs = some next ∧ next ≤ deadlineUs := by
  have hmem : deadlineUs ∈ timers.toList.filterMap (·.nextDeadlineUs) := by
    refine List.mem_filterMap.mpr ⟨timers.get which, ?_, hd⟩
    simp [Vector.get_eq_getElem]
  cases hmin : timers.nextDeadlineUs
  case none =>
    rw [nextDeadlineUs, List.min?_eq_none_iff] at hmin
    simp [hmin] at hmem
  case some next =>
    rw [nextDeadlineUs, List.min?_eq_some_iff] at hmin
    exact ⟨next, rfl, hmin.2 deadlineUs hmem⟩

end IntervalTimers

namespace TimerState

variable {state : TimerState} {dropped : Nat → Bool} {task owner : Nat} {active found : Bool} {owners : List Nat}

theorem retainOwners_sublist : (retainOwners dropped task active found owners).1.Sublist owners := by
  induction owners generalizing found
  case nil => exact .slnil
  case cons other owners hi =>
    simp only [retainOwners]
    split
    case isTrue => exact hi.cons _
    case isFalse =>
      split
      case isTrue => exact hi.cons_cons _
      case isFalse =>
        split
        case isTrue => exact hi.cons_cons _
        case isFalse => exact hi.cons _

theorem mem_retainOwners : owner ∈ (retainOwners dropped task active found owners).1 ↔
    owner ∈ owners ∧ ¬dropped owner ∧ (owner = task → active ∧ ¬found) := by
  induction owners generalizing found
  case nil => simp [retainOwners]
  case cons other owners hi =>
    by_cases ho : owner = other <;> grind [retainOwners]

theorem found_retainOwners : (retainOwners dropped task active found owners).2 =
    (found || active && decide (task ∈ owners ∧ ¬dropped task)) := by
  induction owners generalizing found
  case nil => simp [retainOwners]
  case cons other owners hi => grind [retainOwners]

theorem mem_syncOwners : owner ∈ syncOwners dropped task active owners ↔
    owner ≠ task ∧ owner ∈ owners ∧ ¬dropped owner ∨ owner = task ∧ active := by
  simp only [syncOwners, found_retainOwners]
  split <;> grind [mem_retainOwners]

theorem nodup_syncOwners (h : owners.Nodup) : (syncOwners dropped task active owners).Nodup := by
  have hkept : (retainOwners dropped task active false owners).1.Nodup := h.sublist retainOwners_sublist
  simp only [syncOwners]
  split
  case isFalse => exact hkept
  case isTrue hc =>
    refine List.nodup_append.mpr ⟨hkept, List.nodup_singleton task, ?_⟩
    grind [mem_retainOwners, found_retainOwners]

end TimerState

-- Where a thread is in a call. It may have set a timer or cleared those of a task, or it may be in a scan, which has kept
-- some owners and has yet to look at others.
inductive TimerPhase
  | idle
  | updated (active : Bool)
  | cleared (task : Nat)
  | scanning (kept rest : List Nat) (scan : TimerScan)

-- Where the other threads are does not change.
theorem of_update {phases : KernelCtx → TimerPhase} {ctx other : KernelCtx} {phase value : TimerPhase} (hv : phase ≠ value)
    (h : update phases ctx phase other = value) : phases other = value := by
  have hne : other ≠ ctx := by
    rintro rfl
    exact hv (by simpa using h)
  simpa [hne] using h

theorem update_iff {phases : KernelCtx → TimerPhase} {ctx other : KernelCtx} {phase value : TimerPhase}
    (hp : phases ctx ≠ value) (hv : phase ≠ value) : update phases ctx phase other = value ↔ phases other = value := by
  refine ⟨of_update hv, fun h => ?_⟩
  have hne : other ≠ ctx := by
    rintro rfl
    exact hp h
  simpa [hne] using h

namespace TimerState

-- What a scan has found so far.
structure Scanning (state : TimerState) (kept rest : List Nat) (scan : TimerScan) : Prop where
  nodup : (kept ++ rest).Nodup
  owner : ∀ task, state.settled task → (state.timers task).armed → task ∈ kept ++ rest
  same : ∀ task ∈ rest, state.settled task → state.timers task = state.scanned task
  covers : ∀ task which deadlineUs, state.settled task →
    ((state.scanned task).get which).deadlineUs = some deadlineUs → task ∈ rest ∨ scan.Covers task which deadlineUs

structure Inv (state : TimerState) (phases : KernelCtx → TimerPhase) : Prop where
  nodup : state.owners.Nodup
  alive : ∀ task, ¬state.exited task → state.status task ≠ .zombie ∧ ¬state.dropped task
  owner : ∀ task, state.settled task → (state.timers task).armed → task ∈ state.owners
  updating : ∀ task, state.updating task → ∃ active, phases (.task task) = .updated active
  updated : ∀ task active, phases (.task task) = .updated active →
    state.updating task ∧ (¬state.exited task → (state.timers task).armed → active)
  cleared : ∀ ctx task, phases ctx = .cleared task → state.exited task
  lock : ∀ ctx kept rest scan, phases ctx = .scanning kept rest scan → state.ownersLock = some ctx
  scan : ∀ ctx kept rest scan, phases ctx = .scanning kept rest scan → state.Scanning kept rest scan
  found : ∀ event ∈ state.history, event.Found

variable {state state' : TimerState} {kept rest : List Nat} {scan : TimerScan} {phases : KernelCtx → TimerPhase}
variable {ctx : KernelCtx} {task : Nat} {active : Bool}

theorem settled_iff : state.settled task ↔ ¬state.exited task ∧ ¬state.updating task := by
  simp [settled]

theorem Scanning.mono (h : state.Scanning kept rest scan) (hc : state'.scanned = state.scanned)
    (hs : ∀ task, state'.settled task → state.settled task ∧ state'.timers task = state.timers task) :
    state'.Scanning kept rest scan where
  nodup := h.nodup
  owner task ht ha := h.owner task (hs task ht).1 ((hs task ht).2 ▸ ha)
  same task hr ht := by rw [(hs task ht).2, hc, h.same task hr (hs task ht).1]
  covers task which deadlineUs ht := by
    rw [hc]
    exact h.covers task which deadlineUs (hs task ht).1

-- A task that has exited does not matter any more, and neither does the next owner of a scan if it has.
theorem Scanning.skip {owner : Nat} (h : state.Scanning kept (owner :: rest) scan) (he : state.exited owner) :
    state.Scanning kept rest scan where
  nodup := h.nodup.sublist (by simp)
  owner task ht ha := by
    have hne : task ≠ owner := fun hx => (settled_iff.mp ht).1 (hx ▸ he)
    simpa [hne] using h.owner task ht ha
  same task hr := h.same task (List.mem_cons_of_mem _ hr)
  covers task which deadlineUs ht hd := by
    have hne : task ≠ owner := fun hx => (settled_iff.mp ht).1 (hx ▸ he)
    simpa [hne] using h.covers task which deadlineUs ht hd

-- Tasks exit, and those that have exited may change.
theorem Inv.exit (h : state.Inv phases) (hu : state'.updating = state.updating) (ho : state'.owners = state.owners)
    (hl : state'.ownersLock = state.ownersLock) (hc : state'.scanned = state.scanned)
    (hh : state'.history = state.history)
    (hs : ∀ task, ¬state'.exited task → ¬state.exited task ∧ state'.timers task = state.timers task ∧
      state'.status task ≠ .zombie ∧ ¬state'.dropped task) : state'.Inv phases := by
  have hsettled : ∀ task, state'.settled task → state.settled task ∧ state'.timers task = state.timers task := by
    intro task ht
    obtain ⟨he, hupdating⟩ := settled_iff.mp ht
    obtain ⟨he', htimers, _⟩ := hs task he
    exact ⟨settled_iff.mpr ⟨he', hu ▸ hupdating⟩, htimers⟩
  exact {
    nodup := ho ▸ h.nodup
    alive := fun task he => (hs task he).2.2
    owner := fun task ht ha => ho ▸ h.owner task (hsettled task ht).1 ((hsettled task ht).2 ▸ ha)
    updating := fun task => hu ▸ h.updating task
    updated := fun task active hp => by
      refine ⟨hu ▸ (h.updated task active hp).1, fun he ha => ?_⟩
      exact (h.updated task active hp).2 (hs task he).1 ((hs task he).2.1 ▸ ha)
    cleared := fun ctx task hp => by
      by_contra he
      exact (hs task he).1 (h.cleared ctx task hp)
    lock := fun ctx kept rest scan hp => hl ▸ h.lock ctx kept rest scan hp
    scan := fun ctx kept rest scan hp => (h.scan ctx kept rest scan hp).mono hc hsettled
    found := hh ▸ h.found
  }

-- The task does not count as settled until it has entered or left the owners.
theorem Inv.store (h : state.Inv phases) (timers : IntervalTimers) :
    Inv { state with timers := update state.timers task timers, updating := update state.updating task true }
      (update phases (.task task) (.updated timers.armed)) := by
  have hsettled : ∀ other, settled { state with
      timers := update state.timers task timers, updating := update state.updating task true } other →
      other ≠ task ∧ state.settled other := by
    intro other ht
    have hne : other ≠ task := fun he => (settled_iff.mp ht).2 (by simp [he])
    refine ⟨hne, settled_iff.mpr ?_⟩
    simpa [hne] using settled_iff.mp ht
  refine {
    nodup := h.nodup, alive := h.alive, found := h.found
    owner := ?owner, updating := ?updating, updated := ?updated, cleared := ?cleared, lock := ?lock, scan := ?scan
  }
  case owner =>
    intro other ht ha
    obtain ⟨hne, ht⟩ := hsettled other ht
    exact h.owner other ht (by simpa [hne] using ha)
  case updating =>
    intro other hother
    by_cases hne : other = task
    case pos => exact ⟨timers.armed, by simp [hne]⟩
    case neg => simpa [hne] using h.updating other (by simpa [hne] using hother)
  case updated =>
    intro other active hother
    by_cases hne : other = task
    case pos => simp_all
    case neg => simpa [hne] using h.updated other active (by simpa [hne] using hother)
  case cleared => exact fun ctx other hctx => h.cleared ctx other (of_update (by simp) hctx)
  case lock => exact fun ctx kept rest scan hctx => h.lock ctx kept rest scan (of_update (by simp) hctx)
  case scan =>
    intro ctx kept rest scan hctx
    refine (h.scan ctx kept rest scan (of_update (by simp) hctx)).mono rfl fun other ht => ?_
    obtain ⟨hne, ht⟩ := hsettled other ht
    exact ⟨ht, by simp [hne]⟩

-- No scan is under way while the lock of the owners is free.
theorem Inv.not_scanning (h : state.Inv phases) (hl : state.ownersLock = none) (ctx : KernelCtx) (kept rest : List Nat)
    (scan : TimerScan) : phases ctx ≠ .scanning kept rest scan :=
  fun hp => by simpa [hl] using h.lock ctx kept rest scan hp

-- A task that has set a timer becomes settled again.
theorem Inv.sync (h : state.Inv phases) (hl : state.ownersLock = none) (hp : phases (.task task) = .updated active) :
    Inv { state with
      owners := syncOwners state.dropped task active state.owners
      updating := update state.updating task false } (update phases (.task task) .idle) := by
  have hscan := h.not_scanning hl
  refine {
    nodup := nodup_syncOwners h.nodup, alive := h.alive, found := h.found
    owner := ?owner, updating := ?updating, updated := ?updated, cleared := ?cleared, lock := ?lock, scan := ?scan
  }
  case owner =>
    intro other ht ha
    obtain ⟨he, hu⟩ := settled_iff.mp ht
    by_cases hne : other = task
    case pos =>
      subst hne
      exact mem_syncOwners.mpr (.inr ⟨rfl, (h.updated other active hp).2 he ha⟩)
    case neg =>
      have ht : state.settled other := settled_iff.mpr ⟨he, by simpa [hne] using hu⟩
      exact mem_syncOwners.mpr (.inl ⟨hne, h.owner other ht ha, (h.alive other he).2⟩)
  case updating =>
    intro other hother
    have hne : other ≠ task := fun he => by simp [he] at hother
    simpa [hne] using h.updating other (by simpa [hne] using hother)
  case updated =>
    intro other active hother
    have hne : other ≠ task := fun he => by simp [he] at hother
    simpa [hne] using h.updated other active (by simpa [hne] using hother)
  case cleared => exact fun ctx other hctx => h.cleared ctx other (of_update (by simp) hctx)
  case lock => exact fun ctx kept rest scan hctx => absurd (of_update (by simp) hctx) (hscan ctx kept rest scan)
  case scan => exact fun ctx kept rest scan hctx => absurd (of_update (by simp) hctx) (hscan ctx kept rest scan)

-- A task that has exited has no timers, and leaves the owners.
theorem Inv.clear (h : state.Inv phases) (hp : phases ctx = .idle) (he : state.exited task) :
    Inv { state with timers := update state.timers task .empty } (update phases ctx (.cleared task)) := by
  have hne : ∀ other, ¬state.exited other → other ≠ task := fun other ho hx => ho (hx ▸ he)
  have hidle : ∀ task' active, update phases ctx (.cleared task) (.task task') = .updated active ↔
      phases (.task task') = .updated active := fun task' active => update_iff (by simp [hp]) (by simp)
  have hexit : Inv { state with timers := update state.timers task .empty } phases :=
    h.exit rfl rfl rfl rfl rfl fun other ho => ⟨ho, by simp [hne other ho], h.alive other ho⟩
  refine {
    nodup := hexit.nodup, alive := hexit.alive, owner := hexit.owner, found := hexit.found
    updating := by simpa only [hidle] using hexit.updating, updated := by simpa only [hidle] using hexit.updated
    cleared := ?cleared
    lock := fun other kept rest scan hphase => hexit.lock other kept rest scan (of_update (by simp) hphase)
    scan := fun other kept rest scan hphase => hexit.scan other kept rest scan (of_update (by simp) hphase)
  }
  case cleared =>
    intro other task' hphase
    by_cases ht : task' = task
    case pos => exact ht ▸ he
    case neg => exact h.cleared other task' (of_update (by simpa using Ne.symm ht) hphase)

theorem Inv.release (h : state.Inv phases) (hl : state.ownersLock = none) (hp : phases ctx = .cleared task) :
    Inv { state with owners := syncOwners state.dropped task false state.owners } (update phases ctx .idle) := by
  have hscan := h.not_scanning hl
  have he := h.cleared ctx task hp
  have hidle : ∀ task active, update phases ctx .idle (.task task) = .updated active ↔
      phases (.task task) = .updated active := fun task active => update_iff (by simp [hp]) (by simp)
  have hother : ∀ other kept rest scan, update phases ctx .idle other ≠ .scanning kept rest scan := by
    exact fun other kept rest scan hphase => hscan other kept rest scan (of_update (by simp) hphase)
  have hnodup : (syncOwners state.dropped task false state.owners).Nodup := nodup_syncOwners h.nodup
  refine {
    nodup := hnodup, alive := h.alive, found := h.found
    updating := by simpa only [hidle] using h.updating, updated := by simpa only [hidle] using h.updated
    owner := ?owner, cleared := ?cleared
    lock := fun other kept rest scan hphase => absurd hphase (hother other kept rest scan)
    scan := fun other kept rest scan hphase => absurd hphase (hother other kept rest scan)
  }
  case owner =>
    intro other ht ha
    obtain ⟨he', _⟩ := settled_iff.mp ht
    have hne : other ≠ task := fun hx => he' (hx ▸ he)
    have hmem : other ∈ syncOwners state.dropped task false state.owners :=
      mem_syncOwners.mpr (.inl ⟨hne, h.owner other ht ha, (h.alive other he').2⟩)
    exact hmem
  case cleared => exact fun other task hphase => h.cleared other task (of_update (by simp) hphase)

theorem Inv.lockOwners (h : state.Inv phases) (hl : state.ownersLock = none) (hp : phases ctx = .idle)
    (scan : TimerScan) :
    Inv { state with ownersLock := some ctx, scanned := state.timers }
      (update phases ctx (.scanning [] state.owners scan)) := by
  have hscan := h.not_scanning hl
  have hother : ∀ other kept rest scan', update phases ctx (.scanning [] state.owners scan) other = .scanning kept rest scan' →
      other = ctx ∧ kept = [] ∧ rest = state.owners ∧ scan' = scan := by
    intro other kept rest scan' hphase
    by_cases hne : other = ctx
    case neg => exact absurd (by simpa [hne] using hphase) (hscan other kept rest scan')
    case pos => simp_all
  have hidle : ∀ task active, update phases ctx (.scanning [] state.owners scan) (.task task) = .updated active ↔
      phases (.task task) = .updated active := fun task active => update_iff (by simp [hp]) (by simp)
  refine {
    nodup := h.nodup, alive := h.alive, owner := h.owner, found := h.found
    updating := ?updating, updated := ?updated, cleared := ?cleared, lock := ?lock, scan := ?scan
  }
  case updating => simpa only [hidle] using h.updating
  case updated => simpa only [hidle] using h.updated
  case cleared => exact fun other task hphase => h.cleared other task (of_update (by simp) hphase)
  case lock =>
    intro other kept rest scan' hphase
    obtain ⟨rfl, _⟩ := hother other kept rest scan' hphase
    rfl
  case scan =>
    intro other kept rest scan' hphase
    obtain ⟨rfl, rfl, rfl, rfl⟩ := hother other kept rest scan' hphase
    refine ⟨h.nodup, h.owner, fun _ _ _ => rfl, fun task which deadlineUs ht hd => .inl (h.owner task ht ?_)⟩
    exact IntervalTimers.armed_iff.mpr ⟨which, by simp [hd]⟩

-- A scan goes on. It does not arm any timers.
theorem Inv.advance (h : state.Inv phases) (hp : phases ctx = .scanning kept rest scan) {kept' rest' : List Nat}
    {scan' : TimerScan} {timers : Nat → IntervalTimers} (ha : ∀ task, (timers task).armed → (state.timers task).armed)
    (hs : Scanning { state with timers } kept' rest' scan') :
    Inv { state with timers } (update phases ctx (.scanning kept' rest' scan')) := by
  have hidle : ∀ task active, update phases ctx (.scanning kept' rest' scan') (.task task) = .updated active ↔
      phases (.task task) = .updated active := fun task active => update_iff (by simp [hp]) (by simp)
  have hother : ∀ other kept rest scan, update phases ctx (.scanning kept' rest' scan') other = .scanning kept rest scan →
      other = ctx ∧ kept = kept' ∧ rest = rest' ∧ scan = scan' := by
    intro other kept rest scan hphase
    by_cases hne : other = ctx
    case pos => simp_all
    case neg =>
      have hlock := h.lock other kept rest scan (by simpa [hne] using hphase)
      rw [h.lock ctx _ _ _ hp] at hlock
      exact absurd (Option.some.inj hlock).symm hne
  refine {
    nodup := h.nodup, alive := h.alive, found := h.found, owner := fun task ht harmed => h.owner task ht (ha task harmed)
    updating := ?updating, updated := ?updated, cleared := ?cleared, lock := ?lock, scan := ?scan
  }
  case updating => simpa only [hidle] using h.updating
  case updated =>
    intro task active hphase
    obtain ⟨hu, hactive⟩ := h.updated task active ((hidle task active).mp hphase)
    exact ⟨hu, fun he harmed => hactive he (ha task harmed)⟩
  case cleared => exact fun other task hphase => h.cleared other task (of_update (by simp) hphase)
  case lock =>
    intro other kept rest scan hphase
    obtain ⟨rfl, _⟩ := hother other kept rest scan hphase
    exact h.lock _ _ _ _ hp
  case scan =>
    intro other kept rest scan hphase
    obtain ⟨rfl, rfl, rfl, rfl⟩ := hother other kept rest scan hphase
    exact hs

-- A task that is asked for its next deadline stays an owner if it has one.
theorem Scanning.query {owner : Nat} {next : Option Nat} (h : state.Scanning kept (owner :: rest) (.deadline next)) :
    match (state.timers owner).nextDeadlineUs with
    | none          => state.Scanning kept rest (.deadline next)
    | some deadline => state.Scanning (kept ++ [owner]) rest (.deadline (some (next.elim deadline (min · deadline)))) := by
  split
  case h_1 hnone =>
    have harmed : ¬(state.timers owner).armed := by
      intro ha
      obtain ⟨which, hw⟩ := IntervalTimers.armed_iff.mp ha
      obtain ⟨deadlineUs, hd⟩ := Option.isSome_iff_exists.mp hw
      obtain ⟨_, hsome, _⟩ := IntervalTimers.nextDeadlineUs_le hd
      simp [hnone] at hsome
    refine ⟨h.nodup.sublist (by simp), fun task ht ha => ?_, fun task hr => h.same task (List.mem_cons_of_mem _ hr),
      fun task which deadlineUs ht hd => ?_⟩
    case refine_1 =>
      have hne : task ≠ owner := fun he => harmed (he ▸ ha)
      simpa [hne] using h.owner task ht ha
    case refine_2 =>
      have hne : task ≠ owner := by
        rintro rfl
        rw [← h.same task List.mem_cons_self ht] at hd
        exact harmed (IntervalTimers.armed_iff.mpr ⟨which, by simp [hd]⟩)
      simpa [hne] using h.covers task which deadlineUs ht hd
  case h_2 deadline hsome =>
    have hle : next.elim deadline (min · deadline) ≤ deadline := by cases next <;> simp
    refine ⟨by simpa using h.nodup, fun task ht ha => by simpa using h.owner task ht ha,
      fun task hr => h.same task (List.mem_cons_of_mem _ hr), fun task which deadlineUs ht hd => ?_⟩
    obtain hr | ⟨nextUs, hn, hnle⟩ := h.covers task which deadlineUs ht hd
    case inr =>
      subst hn
      exact .inr ⟨_, rfl, (Nat.min_le_left ..).trans hnle⟩
    case inl =>
      obtain rfl | hr := List.mem_cons.mp hr
      case inr => exact .inl hr
      case inl =>
        rw [← h.same task List.mem_cons_self ht] at hd
        obtain ⟨_, hs, hdle⟩ := IntervalTimers.nextDeadlineUs_le hd
        obtain rfl := Option.some.inj (hsome.symm.trans hs)
        exact .inr ⟨_, rfl, hle.trans hdle⟩

-- The timers of a task expire, and it stays an owner if one of them is still armed.
theorem Scanning.expire {owner nowUs : Nat} {expired : List (Nat × Fin 3)}
    (h : state.Scanning kept (owner :: rest) (.expired nowUs expired)) :
    Scanning { state with timers := update state.timers owner ((state.timers owner).expireAt nowUs).2 }
      (if ((state.timers owner).expireAt nowUs).2.armed then kept ++ [owner] else kept) rest
      (.expired nowUs (expired ++ ((state.timers owner).expireAt nowUs).1.map (owner, ·))) := by
  have hnodup := h.nodup
  refine ⟨?_, fun task ht ha => ?_, fun task hr ht => ?_, fun task which deadlineUs ht hd => ?_⟩
  case refine_1 =>
    split
    · simpa using hnodup
    · exact hnodup.sublist (by simp)
  case refine_2 =>
    by_cases hne : task = owner
    case pos =>
      subst hne
      simp only [Function.update_self] at ha
      simp [ha]
    case neg =>
      have hmem := h.owner task ht (by simpa [hne] using ha)
      split <;> simpa [hne] using hmem
  case refine_3 =>
    have hne : task ≠ owner := by
      rintro rfl
      exact (List.nodup_cons.mp (List.nodup_append.mp hnodup).2.1).1 hr
    simpa [hne] using h.same task (List.mem_cons_of_mem _ hr) ht
  case refine_4 =>
    obtain hr | hc := h.covers task which deadlineUs ht hd
    case inr => exact .inr fun hle => List.mem_append_left _ (hc hle)
    case inl =>
      obtain rfl | hr := List.mem_cons.mp hr
      case inr => exact .inl hr
      case inl =>
        refine .inr fun hle => List.mem_append_right _ (List.mem_map_of_mem ?_)
        rw [← h.same task List.mem_cons_self ht] at hd
        exact IntervalTimers.mem_expireAt hd hle

-- The scan ends with the owners that it has kept.
theorem Inv.unlock (h : state.Inv phases) (hp : phases ctx = .scanning kept [] scan) :
    Inv { state with
      owners := kept
      ownersLock := none
      history := ⟨state.scanned, state.settled, scan⟩ :: state.history } (update phases ctx .idle) := by
  have hs := h.scan ctx kept [] scan hp
  have hidle : ∀ task active, update phases ctx .idle (.task task) = .updated active ↔
      phases (.task task) = .updated active := fun task active => update_iff (by simp [hp]) (by simp)
  have hother : ∀ other kept rest scan, update phases ctx .idle other ≠ .scanning kept rest scan := by
    intro other kept rest scan hphase
    have hne : other ≠ ctx := fun he => by simp [he] at hphase
    have hlock := h.lock other kept rest scan (by simpa [hne] using hphase)
    rw [h.lock ctx _ _ _ hp] at hlock
    exact hne (Option.some.inj hlock).symm
  refine {
    nodup := by simpa using hs.nodup, alive := h.alive, owner := fun task ht ha => by simpa using hs.owner task ht ha
    updating := ?updating, updated := ?updated, cleared := ?cleared, found := ?found
    lock := fun other kept rest scan hphase => absurd hphase (hother other kept rest scan)
    scan := fun other kept rest scan hphase => absurd hphase (hother other kept rest scan)
  }
  case updating => simpa only [hidle] using h.updating
  case updated => simpa only [hidle] using h.updated
  case cleared => exact fun other task hphase => h.cleared other task (of_update (by simp) hphase)
  case found =>
    intro event hevent
    obtain rfl | hevent := List.mem_cons.mp hevent
    case inr => exact h.found event hevent
    case inl =>
      intro task which deadlineUs ht hd
      simpa using hs.covers task which deadlineUs ht hd

theorem Inv.tracked (h : state.Inv phases) : state.Tracked where
  owner task ht ha := List.count_eq_one_of_mem h.nodup (h.owner task ht ha)
  found := h.found

end TimerState

open TimerInstr TimerState

variable {ctx : KernelCtx} {phase : TimerPhase} {kept rest : List Nat} {scan : TimerScan}

def timerProtocol : Protocol TimerInstr.machine TimerPhase where
  inv := TimerState.Inv

-- An instruction after which the thread is where it was.
theorem keep_wp {β : Type} {i : TimerInstr β} {post : β → TimerPhase → Prop}
    (h : ∀ state phases b state', state.Inv phases → phases ctx = phase →
      TimerInstr.machine.exec ctx i state = some (b, state') → state'.Inv phases ∧ post b phase) :
    timerProtocol.wp ctx (liftM i) post phase := by
  refine .instr trivial fun state phases b state' hinv hp _ hx => ⟨phase, ?_⟩
  obtain ⟨hinv', hpost⟩ := h state phases b state' hinv hp hx
  rw [← hp, Function.update_eq_self]
  exact ⟨hinv', hp ▸ hpost⟩

theorem elapse_wp (us : Nat) : timerProtocol.wp ctx (liftM (elapse us)) (fun _ phase' => phase' = phase) phase := by
  refine keep_wp fun state phases b state' hinv _ hx => ⟨?_, rfl⟩
  simp only [TimerInstr.machine, Option.some.injEq, Prod.mk.injEq, true_and] at hx
  subst hx
  exact hinv.exit rfl rfl rfl rfl rfl fun task he => ⟨he, rfl, hinv.alive task he⟩

theorem setStatus_wp (task : Nat) (status : TaskStatus) :
    timerProtocol.wp ctx (liftM (setStatus task status)) (fun _ phase' => phase' = phase) phase := by
  refine keep_wp fun state phases b state' hinv _ hx => ⟨?_, rfl⟩
  simp only [TimerInstr.machine, Option.some.injEq, Prod.mk.injEq, true_and] at hx
  subst hx
  refine hinv.exit rfl rfl rfl rfl rfl fun other he => ?_
  by_cases hne : other = task
  case pos =>
    subst hne
    simp only [Function.update_self, Bool.or_eq_true, decide_eq_true_eq, not_or] at he ⊢
    exact ⟨he.1, trivial, he.2, (hinv.alive other he.1).2⟩
  case neg =>
    simp only [ne_eq, hne, not_false_eq_true, Function.update_of_ne] at he ⊢
    exact ⟨he, trivial, hinv.alive other he⟩

theorem drop_wp (task : Nat) : timerProtocol.wp ctx (liftM (drop task)) (fun _ phase' => phase' = phase) phase := by
  refine keep_wp fun state phases b state' hinv _ hx => ⟨?_, rfl⟩
  simp only [TimerInstr.machine] at hx
  split at hx
  case isFalse => cases hx
  case isTrue hexited =>
    cases hx
    refine hinv.exit rfl rfl rfl rfl rfl fun other he => ⟨he, rfl, (hinv.alive other he).1, ?_⟩
    have hne : other ≠ task := fun hx => he (hx ▸ hexited)
    simpa [hne] using (hinv.alive other he).2

theorem loadTimer_wp (task : Nat) (which : Fin 3) :
    timerProtocol.wp ctx (liftM (loadTimer task which)) (fun _ phase' => phase' = phase) phase := by
  refine keep_wp fun state phases b state' hinv _ hx => ⟨?_, rfl⟩
  cases hx
  exact hinv

theorem getTimeUs_wp : timerProtocol.wp ctx (liftM getTimeUs) (fun _ phase' => phase' = phase) phase := by
  refine keep_wp fun state phases b state' hinv _ hx => ⟨?_, rfl⟩
  cases hx
  exact hinv

theorem storeTimer_wp (task : Nat) (which : Fin 3) (intervalUs valueUs : Nat) :
    timerProtocol.wp (.task task) (liftM (storeTimer task which intervalUs valueUs))
      (fun active phase => phase = .updated active) .idle := by
  refine .instr trivial fun state phases b state' hinv _ _ hx => ?_
  cases hx
  exact ⟨_, hinv.store _, rfl⟩

theorem syncOwner_wp (task : Nat) (active : Bool) :
    timerProtocol.wp (.task task) (liftM (syncOwner task active)) (fun _ phase => phase = .idle) (.updated active) := by
  refine .instr trivial fun state phases b state' hinv hp _ hx => ?_
  simp only [TimerInstr.machine] at hx
  split at hx
  case isFalse => cases hx
  case isTrue hl =>
    cases hx
    exact ⟨.idle, by simpa [timerProtocol] using hinv.sync hl hp, rfl⟩

theorem lockOwners_wp (scan : TimerScan) :
    timerProtocol.wp ctx (liftM lockOwners) (fun owners phase => phase = .scanning [] owners scan) .idle := by
  refine .instr trivial fun state phases owners state' hinv hp _ hx => ?_
  simp only [TimerInstr.machine] at hx
  split at hx
  case isFalse => cases hx
  case isTrue hl =>
    cases hx
    exact ⟨_, hinv.lockOwners hl hp scan, rfl⟩

theorem unlockOwners_wp :
    timerProtocol.wp ctx (liftM (unlockOwners kept scan)) (fun _ phase => phase = .idle) (.scanning kept [] scan) := by
  refine .instr trivial fun state phases b state' hinv hp _ hx => ?_
  cases hx
  exact ⟨.idle, hinv.unlock hp, rfl⟩

-- An owner that has exited is left out.
theorem skip_wp {owner : Nat} {β : Type} {i : TimerInstr β} {value : TimerState → β}
    (hi : ∀ state, TimerInstr.machine.exec ctx i state = some (value state, state)) {gone : β → Prop}
    (hg : ∀ state phases, state.Inv phases → gone (value state) → state.exited owner) :
    timerProtocol.wp ctx (liftM i) (fun b phase =>
      gone b ∧ phase = .scanning kept rest scan ∨ ¬gone b ∧ phase = .scanning kept (owner :: rest) scan)
      (.scanning kept (owner :: rest) scan) := by
  refine .total hi trivial fun state phases hinv hp _ => ?_
  by_cases hgone : gone (value state)
  case pos =>
    have hskip := (hinv.scan ctx _ _ _ hp).skip (hg state phases hinv hgone)
    exact ⟨_, hinv.advance hp (fun _ => id) hskip, .inl ⟨hgone, rfl⟩⟩
  case neg =>
    refine ⟨phases ctx, ?_, .inr ⟨hgone, hp⟩⟩
    rw [Function.update_eq_self]
    exact hinv

theorem upgrade_wp (owner : Nat) :
    timerProtocol.wp ctx (liftM (upgrade owner)) (fun b phase =>
      b = false ∧ phase = .scanning kept rest scan ∨ ¬b = false ∧ phase = .scanning kept (owner :: rest) scan)
      (.scanning kept (owner :: rest) scan) := by
  refine skip_wp (fun _ => rfl) fun state phases hinv hgone => ?_
  by_contra he
  exact (hinv.alive owner he).2 (by simpa using hgone)

theorem status_wp (owner : Nat) :
    timerProtocol.wp ctx (liftM (status owner)) (fun b phase =>
      b = .zombie ∧ phase = .scanning kept rest scan ∨ b ≠ .zombie ∧ phase = .scanning kept (owner :: rest) scan)
      (.scanning kept (owner :: rest) scan) := by
  refine skip_wp (fun _ => rfl) fun state phases hinv hgone => ?_
  by_contra he
  exact (hinv.alive owner he).1 hgone

theorem nextDeadlineUs_wp (owner : Nat) (next : Option Nat) :
    timerProtocol.wp ctx (liftM (nextDeadlineUs owner)) (fun result phase => match result with
      | none          => phase = .scanning kept rest (.deadline next)
      | some deadline =>
        phase = .scanning (kept ++ [owner]) rest (.deadline (some (next.elim deadline (min · deadline)))))
      (.scanning kept (owner :: rest) (.deadline next)) := by
  refine .total (fun _ => rfl) trivial fun state phases hinv hp _ => ?_
  have hquery := (hinv.scan ctx _ _ _ hp).query
  dsimp only
  split at hquery
  case h_1 => exact ⟨_, hinv.advance hp (fun _ => id) hquery, rfl⟩
  case h_2 => exact ⟨_, hinv.advance hp (fun _ => id) hquery, rfl⟩

theorem expireTimers_wp (owner nowUs : Nat) (expired : List (Nat × Fin 3)) :
    timerProtocol.wp ctx (liftM (expireTimers owner nowUs)) (fun result phase =>
      phase = .scanning (if result.2 then kept ++ [owner] else kept) rest
        (.expired nowUs (expired ++ result.1.map (owner, ·))))
      (.scanning kept (owner :: rest) (.expired nowUs expired)) := by
  refine .total (fun _ => rfl) trivial fun state phases hinv hp _ => ?_
  have hexpire := (hinv.scan ctx _ _ _ hp).expire
  refine ⟨_, hinv.advance hp (fun task ha => ?_) hexpire, rfl⟩
  by_cases hne : task = owner
  case pos =>
    subst hne
    rw [Function.update_self] at ha
    exact IntervalTimers.armed_of_expireAt ha
  case neg => simpa [hne] using ha

theorem nextDeadlineOf_wp (next : Option Nat) (owners : List Nat) :
    timerProtocol.wp ctx (nextDeadlineOf next owners)
      (fun result phase => phase = .scanning (kept ++ result.1) [] (.deadline result.2))
      (.scanning kept owners (.deadline next)) := by
  induction owners generalizing kept next
  case nil => simp [nextDeadlineOf, Protocol.wp, pure]
  case cons owner owners hi =>
    refine .bind ((upgrade_wp owner).mono fun upgraded phase hphase => ?_)
    obtain ⟨rfl, rfl⟩ | ⟨hupgraded, rfl⟩ := hphase
    case inl => exact hi next
    case inr =>
      simp only [Bool.not_eq_false] at hupgraded
      subst hupgraded
      refine .bind ((status_wp owner).mono fun status phase hphase => ?_)
      obtain ⟨rfl, rfl⟩ | ⟨hstatus, rfl⟩ := hphase
      case inl => exact hi next
      case inr =>
        rw [if_neg hstatus]
        refine .bind ((nextDeadlineUs_wp owner next).mono fun result phase hphase => ?_)
        cases result
        case none =>
          subst hphase
          exact hi next
        case some deadline =>
          subst hphase
          refine .bind ((hi _).mono fun result phase hphase => ?_)
          subst hphase
          simp [Protocol.wp, pure]

theorem expireOwners_wp (nowUs : Nat) (owners : List Nat) (expired : List (Nat × Fin 3)) :
    timerProtocol.wp ctx (expireOwners nowUs owners)
      (fun result phase => phase = .scanning (kept ++ result.1) [] (.expired nowUs (expired ++ result.2)))
      (.scanning kept owners (.expired nowUs expired)) := by
  induction owners generalizing kept expired
  case nil => simp [expireOwners, Protocol.wp, pure]
  case cons owner owners hi =>
    refine .bind ((upgrade_wp owner).mono fun upgraded phase hphase => ?_)
    obtain ⟨rfl, rfl⟩ | ⟨hupgraded, rfl⟩ := hphase
    case inl => exact hi expired
    case inr =>
      simp only [Bool.not_eq_false] at hupgraded
      subst hupgraded
      refine .bind ((status_wp owner).mono fun status phase hphase => ?_)
      obtain ⟨rfl, rfl⟩ | ⟨hstatus, rfl⟩ := hphase
      case inl => exact hi expired
      case inr =>
        rw [if_neg hstatus]
        refine .bind ((expireTimers_wp owner nowUs expired).mono fun result phase hphase => ?_)
        subst hphase
        refine .bind ((hi _).mono fun more phase hphase => ?_)
        subst hphase
        cases result.2 <;> simp [Protocol.wp, pure]

theorem nextIntervalTimerDeadlineUs_wp :
    timerProtocol.wp ctx nextIntervalTimerDeadlineUs (fun _ phase => phase = .idle) .idle := by
  refine .bind ((lockOwners_wp (.deadline none)).mono fun owners phase hphase => ?_)
  subst hphase
  refine .bind ((nextDeadlineOf_wp none owners).mono fun result phase hphase => ?_)
  subst hphase
  exact .bind (unlockOwners_wp.mono fun _ _ => id)

theorem wakeExpiredIntervalTimers_wp :
    timerProtocol.wp ctx wakeExpiredIntervalTimers (fun _ phase => phase = .idle) .idle := by
  refine .bind (getTimeUs_wp.mono fun nowUs phase hphase => ?_)
  subst hphase
  refine .bind ((lockOwners_wp (.expired nowUs [])).mono fun owners phase hphase => ?_)
  subst hphase
  refine .bind ((expireOwners_wp nowUs owners []).mono fun result phase hphase => ?_)
  subst hphase
  exact .bind (unlockOwners_wp.mono fun _ _ => id)

theorem sysSetitimer_wp (task : Nat) (which : Fin 3) (intervalUs valueUs : Nat) :
    timerProtocol.wp (.task task) (sysSetitimer task which intervalUs valueUs) (fun _ phase => phase = .idle) .idle := by
  refine .bind ((loadTimer_wp task which).mono fun _ phase hphase => ?_)
  subst hphase
  refine .bind ((storeTimer_wp task which intervalUs valueUs).mono fun active phase hphase => ?_)
  subst hphase
  refine .bind ((syncOwner_wp task active).mono fun _ phase hphase => ?_)
  subst hphase
  exact .bind (nextIntervalTimerDeadlineUs_wp.mono fun _ _ => id)

theorem releaseTimers_wp (task : Nat) : timerProtocol.wp ctx (releaseTimers task) (fun _ phase => phase = .idle) .idle := by
  have hclear : timerProtocol.wp ctx (liftM (TimerInstr.clearTimers task)) (fun _ phase => phase = .cleared task) .idle := by
    refine .instr trivial fun state phases b state' hinv hp _ hx => ?_
    simp only [TimerInstr.machine] at hx
    split at hx
    case isFalse => cases hx
    case isTrue he =>
      cases hx
      exact ⟨.cleared task, hinv.clear hp he, rfl⟩
  refine .bind (hclear.mono fun _ phase hphase => ?_)
  subst hphase
  refine .instr trivial fun state phases b state' hinv hp _ hx => ?_
  simp only [TimerInstr.machine] at hx
  split at hx
  case isFalse => cases hx
  case isTrue hl =>
    cases hx
    have hsame : (if ctx = .task task then update state.updating task false else state.updating) = state.updating := by
      split
      case isFalse => rfl
      case isTrue hself =>
        refine Function.update_eq_self_iff.mpr ?_
        by_contra hu
        obtain ⟨active, ha⟩ := hinv.updating task (by simpa using Ne.symm hu)
        simp [← hself, hp] at ha
    exact ⟨.idle, by rw [hsame]; exact hinv.release hl hp, rfl⟩

theorem timerCall_wp {α : Type} {p : TimerM α} (h : TimerCall ctx p) :
    timerProtocol.wp ctx p (fun _ phase => phase = .idle) .idle := by
  cases h
  case setitimer task which intervalUs valueUs hself =>
    subst hself
    exact sysSetitimer_wp task which intervalUs valueUs
  case getitimer task which _ => exact loadTimer_wp task which
  case expire => exact wakeExpiredIntervalTimers_wp
  case nextDeadline => exact nextIntervalTimerDeadlineUs_wp
  case release task => exact releaseTimers_wp task
  case setStatus task status => exact setStatus_wp task status
  case drop task => exact drop_wp task
  case elapse us => exact elapse_wp us

theorem TimerState.boot_inv : TimerState.boot.Inv fun _ => .idle where
  nodup := List.nodup_nil
  alive _ _ := by simp [boot]
  owner task _ ha := by simp [boot, IntervalTimers.not_armed_empty] at ha
  updating _ hu := by simp [boot] at hu
  updated _ _ hp := by cases hp
  cleared _ _ hp := by cases hp
  lock _ _ _ _ hp := by cases hp
  scan _ _ _ _ hp := by cases hp
  found _ he := by simp [boot] at he

-- Tasks set their timers, and any CPU looks for those that have expired, in any interleaving of their steps.
theorem intervalTimers_tracked {progs : KernelCtx → Prog TimerInstr Unit} {config : Config TimerInstr TimerState KernelCtx}
    (hp : ∀ ctx, (progs ctx).Calls (TimerCall ctx))
    (hr : Config.Reachable TimerInstr.machine (fun _ _ _ => True) ⟨.boot, progs⟩ config) :
    (∀ (timer : IntervalTimer) (nowUs : Nat), timer.Expires nowUs) ∧ config.state.Tracked := by
  have hsound : timerProtocol.Sound (fun _ phase => phase = .idle) ⟨.boot, progs⟩ fun _ => .idle := {
    inv := TimerState.boot_inv
    wp  := fun ctx => .calls (hp ctx) rfl fun hcall hphase => by rw [hphase]; exact timerCall_wp hcall
  }
  obtain ⟨phases, h⟩ := Protocol.sound hsound (fun _ _ _ _ _ => trivial) hr
  exact ⟨IntervalTimer.expires, h.inv.tracked⟩

-- A task sets a periodic timer, which has been due for a while when an interrupt looks at it.
def lateTick : KernelCtx → Prog TimerInstr Unit
  | .task 0 => do
    sysSetitimer 0 0 10 5
    pure ()
  | .interrupt 0 => do
    elapse 28
    let _ ← wakeExpiredIntervalTimers
    pure ()
  | _ => pure ()

theorem lateTick_calls (ctx : KernelCtx) : (lateTick ctx).Calls (TimerCall ctx) := by
  unfold lateTick
  split
  case h_1 => exact .call (.setitimer 0 0 10 5 rfl) fun _ => .done
  case h_2 => exact .call (.elapse 28) fun _ => .call .expire fun _ => .done
  case h_3 => exact .done

-- The timer goes on with the next point of its grid.
theorem lateTick_tracked : ∃ config : Config TimerInstr TimerState KernelCtx,
    config.state.owners = [0] ∧ config.state.history.map (·.scan) = [.expired 28 [(0, 0)], .deadline (some 5)] ∧
    ((config.state.timers 0).get 0).deadlineUs = some 35 ∧ config.state.Tracked := by
  have hrun : ((⟨.boot, lateTick⟩ : Config TimerInstr TimerState KernelCtx).run TimerInstr.machine
      (List.replicate 8 (.task 0) ++ List.replicate 7 (.interrupt 0))).map (fun config => (config.state.owners,
        config.state.history.map (·.scan), ((config.state.timers 0).get 0).deadlineUs)) =
      some ([0], [.expired 28 [(0, 0)], .deadline (some 5)], some 35) := by decide_cbv
  obtain ⟨config, hr, he⟩ := Option.map_eq_some_iff.mp hrun
  simp only [Prod.mk.injEq] at he
  exact ⟨config, he.1, he.2.1, he.2.2, (intervalTimers_tracked lateTick_calls (.of_run hr)).2⟩

end WllOs
