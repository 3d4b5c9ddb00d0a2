import WllOs.Task.Limits
import WllOs.Task.Theorems.Exec

namespace WllOs

open Function (update)

variable {limits limits' : TaskLimits} {user : UserLimits} {limit : RLimit} {resource other limitPtr : Nat}

-- What the grant of a limit does to the limits of a task.
structure TaskLimits.Granted (limits : TaskLimits) (resource : Nat) (limit : RLimit) (limits' : TaskLimits) :
    Prop where
  ordered : limit.rlimCur ≤ limit.rlimMax
  kept : LimitSystem.Kept resource → limits'.resourceLimitSnapshot resource = limit.capped resource
  others : ∀ other, ¬LimitSystem.Kept resource ∨ other ≠ resource →
    limits'.resourceLimitSnapshot other = limits.resourceLimitSnapshot other

-- What a call does that is granted a limit, or none.
def TaskLimits.Effect (limits : TaskLimits) : Option (Nat × RLimit) → TaskLimits → Prop
  | none                   => (· = limits)
  | some (resource, limit) => limits.Granted resource limit

namespace RLimit

theorem requested_eq_some : requested user limitPtr = some limit ↔
    limitPtr ≠ 0 ∧ user.copyFromUser limitPtr = .ok limit ∧ limit.rlimCur ≤ limit.rlimMax := by
  simp only [requested]
  split
  case isTrue h => simp [h]
  case isFalse h =>
    cases user.copyFromUser limitPtr
    case error => simp [Except.toOption]
    case ok read =>
      simp only [Except.toOption, Option.filter_eq_some_iff, Option.some.injEq, decide_eq_true_eq, Except.ok.injEq,
        ne_eq, h, not_false_eq_true, true_and]

theorem capped_ordered (h : limit.rlimCur ≤ limit.rlimMax) :
    (limit.capped resource).rlimCur ≤ (limit.capped resource).rlimMax := by
  simp only [capped]
  split
  case isTrue => exact min_le_min_right _ h
  case isFalse => exact h

end RLimit

namespace TaskLimits

theorem new_ordered : (new.resourceLimitSnapshot resource).rlimCur ≤ (new.resourceLimitSnapshot resource).rlimMax := by
  simp only [resourceLimitSnapshot, new]
  repeat' split
  all_goals exact Nat.le_refl _

-- The limits after the grant of a limit whose soft limit is not above the hard one.
def store (limits : TaskLimits) (resource : Nat) (limit : RLimit) : TaskLimits :=
  if resource = RLIMIT_FSIZE then
    { limits with rlimitFsize := limit.rlimCur, rlimitFsizeMax := limit.rlimMax }
  else if resource = RLIMIT_CORE then
    { limits with rlimitCore := limit.rlimCur, rlimitCoreMax := limit.rlimMax }
  else if resource = RLIMIT_NOFILE then
    { limits with rlimitNofile := min limit.rlimCur MAX_FD_NUM, rlimitNofileMax := min limit.rlimMax MAX_FD_NUM }
  else
    limits

theorem store_granted (h : limit.rlimCur ≤ limit.rlimMax) :
    limits.Granted resource limit (limits.store resource limit) := by
  refine ⟨h, fun hk => ?_, fun other ho => ?_⟩
  case refine_1 => rcases hk with rfl | rfl | rfl <;> rfl
  case refine_2 =>
    simp only [store]
    split
    case isTrue hr =>
      have hn : other ≠ RLIMIT_FSIZE := ho.elim (fun hk => absurd (.inr (.inl hr)) hk) fun hn => hr ▸ hn
      simp [resourceLimitSnapshot, hn]
    case isFalse =>
      split
      case isTrue hr =>
        have hn : other ≠ RLIMIT_CORE := ho.elim (fun hk => absurd (.inr (.inr hr)) hk) fun hn => hr ▸ hn
        simp [resourceLimitSnapshot, hn]
      case isFalse =>
        split
        case isTrue hr =>
          have hn : other ≠ RLIMIT_NOFILE := ho.elim (fun hk => absurd (.inl hr) hk) fun hn => hr ▸ hn
          simp [resourceLimitSnapshot, hn]
        case isFalse => rfl

-- A request for a limit is granted exactly if it can be read and its soft limit is not above the hard one.
theorem applyResourceLimit_cases (limits : TaskLimits) (user : UserLimits) (resource limitPtr : Nat) :
    (∃ limit, RLimit.requested user limitPtr = some limit ∧
      limits.applyResourceLimit user resource limitPtr = .ok (limits.store resource limit)) ∨
    (RLimit.requested user limitPtr = none ∧
      ∃ error, limits.applyResourceLimit user resource limitPtr = .error error) := by
  simp only [applyResourceLimit]
  split
  case isTrue hz => exact .inr ⟨by simp [RLimit.requested, hz], _, rfl⟩
  case isFalse hz =>
    cases hc : user.copyFromUser limitPtr
    case error error => exact .inr ⟨by simp [RLimit.requested, hz, hc, Except.toOption], error, rfl⟩
    case ok limit =>
      by_cases hl : limit.rlimCur ≤ limit.rlimMax
      case neg =>
        refine .inr ⟨?_, .EINVAL, if_pos (Nat.lt_of_not_le hl)⟩
        simpa [RLimit.requested, hz, hc, Except.toOption] using hl
      case pos =>
        refine .inl ⟨limit, RLimit.requested_eq_some.mpr ⟨hz, hc, hl⟩, ?_⟩
        have hm : min limit.rlimCur (min limit.rlimMax MAX_FD_NUM) = min limit.rlimCur MAX_FD_NUM := by omega
        simp only [bind, Except.bind, if_neg (Nat.not_lt.mpr hl), hm, store]
        rw [apply_ite Except.ok, apply_ite Except.ok, apply_ite Except.ok, ite_not]
        split
        case isTrue hs => subst hs; rfl
        case isFalse => rfl

theorem sysSetrlimit_effect (limits : TaskLimits) (user : UserLimits) (resource newLimit : Nat) :
    limits.Effect ((RLimit.requested user newLimit).map (resource, ·))
      (limits.sysSetrlimit user resource newLimit).snd := by
  simp only [sysSetrlimit]
  cases limits.applyResourceLimit_cases user resource newLimit
  case inl h =>
    have ⟨limit, hr, ha⟩ := h
    rw [hr, ha]
    exact store_granted (RLimit.requested_eq_some.mp hr).right.right
  case inr h =>
    have ⟨hr, _, ha⟩ := h
    rw [hr, ha]
    rfl

-- A failure to write the old limit comes after the grant of the new one.
theorem sysPrlimit64_effect (limits : TaskLimits) (user : UserLimits) (self tgid pid resource newLimit oldLimit : Nat) :
    limits.Effect
      (if pid = 0 ∨ pid = self ∨ pid = tgid then (RLimit.requested user newLimit).map (resource, ·) else none)
      (limits.sysPrlimit64 user self tgid pid resource newLimit oldLimit).snd := by
  by_cases hp : pid = 0 ∨ pid = self ∨ pid = tgid
  case neg =>
    rw [if_neg hp, sysPrlimit64, if_pos (by tauto)]
    rfl
  case pos =>
    rw [if_pos hp, sysPrlimit64, if_neg (by tauto)]
    by_cases hn : newLimit = 0
    case pos =>
      simp only [hn, RLimit.requested, ne_eq, not_true_eq_false, if_true, if_false, Option.map_none]
      split <;> rfl
    case neg =>
      simp only [ne_eq, hn, not_false_eq_true, if_true]
      cases limits.applyResourceLimit_cases user resource newLimit
      case inl h =>
        have ⟨limit, hr, ha⟩ := h
        rw [hr, ha]
        have hg : limits.Granted resource limit (limits.store resource limit) :=
          store_granted (RLimit.requested_eq_some.mp hr).right.right
        dsimp only
        split <;> exact hg
      case inr h =>
        have ⟨hr, _, ha⟩ := h
        rw [hr, ha]
        rfl

theorem callsAnswer (self tgid : Nat) (limits : TaskLimits) : LimitSystem.CallsAnswer self tgid limits where
  getrlimit user resource oldLimit limit h := by
    have ⟨_, h⟩ := Fallible.guard_ok h
    have ⟨_, _, h⟩ := Fallible.bind_ok h
    exact (Except.ok.inj h).symm
  setrlimit user resource newLimit := by
    simp only [sysSetrlimit]
    cases limits.applyResourceLimit_cases user resource newLimit
    case inl h =>
      have ⟨limit, hr, ha⟩ := h
      simp [hr, ha]
    case inr h =>
      have ⟨hr, error, ha⟩ := h
      simp [hr, ha]
  prlimit64 user pid resource newLimit oldLimit limit h := by
    simp only [sysPrlimit64] at h
    split at h
    case isTrue => cases h
    case isFalse =>
      split at h
      case h_1 => cases h
      case h_2 =>
        split at h
        case h_1 => cases h
        case h_2 old ho =>
          have ⟨_, _, he⟩ : ∃ a, user.copyToUser oldLimit = .ok a ∧ old = limit := by
            cases hc : user.copyToUser oldLimit
            case error => rw [hc] at h; cases h
            case ok => rw [hc] at h; exact ⟨_, rfl, Option.some.inj (Except.ok.inj h)⟩
          split at ho
          case isTrue => exact he ▸ (Option.some.inj ho).symm
          case isFalse => cases ho

end TaskLimits

namespace LimitSystem

variable {φ : Type} {system : LimitSystem φ} {arch : Arch} {allowed : LimitSystem φ → Nat → ProcTask → Event φ → Prop}
variable {history : List Entry} {pid child : Nat} {task task' : ProcTask} {event : Event φ}

namespace LimitsHold

theorem granted (h : LimitsHold history pid limits) (hg : limits.Granted resource limit limits') :
    LimitsHold (.granted pid resource limit :: history) pid limits' where
  ordered of := by
    by_cases hk : Kept resource ∧ of = resource
    case pos => rw [hk.right, hg.kept hk.left]; exact RLimit.capped_ordered hg.ordered
    case neg => rw [hg.others of (by tauto)]; exact h.ordered of
  nofile := by
    have hn : (limits'.resourceLimitSnapshot RLIMIT_NOFILE).rlimMax ≤ MAX_FD_NUM := by
      by_cases hr : RLIMIT_NOFILE = resource
      case pos => rw [← hr] at hg; rw [hg.kept (.inl rfl)]; exact Nat.min_le_right ..
      case neg => rw [hg.others _ (.inr hr)]; exact h.nofile
    exact hn
  kept of hk := by
    by_cases hr : resource = of
    case pos => subst hr; simp [inForce, hg.kept hk]
    case neg => rw [hg.others of (.inr (Ne.symm hr)), ← h.kept of hk]; simp [inForce, hr]

-- What the history says of other tasks is left as it is.
theorem frame (h : LimitsHold history pid limits) {entry : Entry}
    (hf : ∀ resource, inForce resource (entry :: history) pid = inForce resource history pid) :
    LimitsHold (entry :: history) pid limits where
  ordered := h.ordered
  nofile := h.nofile
  kept resource hk := (hf resource).trans (h.kept resource hk)

theorem cloned (h : LimitsHold history pid limits) : LimitsHold (.cloned pid child :: history) child limits where
  ordered := h.ordered
  nofile := h.nofile
  kept resource hk := by simpa [inForce] using h.kept resource hk

theorem spawned : LimitsHold (.spawned pid :: history) pid .new where
  ordered _ := TaskLimits.new_ordered
  nofile := Nat.le_refl _
  kept resource _ := by simp [inForce]

end LimitsHold

-- Every task of a system has limits that the history accounts for.
def Accounted (system : LimitSystem φ) (history : List Entry) : Prop :=
  ∀ pid task, system.procs.tasks pid = some task → LimitsHold history pid (system.limits pid)

theorem Accounted.spawn (h : system.Accounted history) {space : AddressSpace} {stdin stdout stderr : φ} :
    (system.spawn pid space stdin stdout stderr).Accounted (.spawned pid :: history) := by
  intro other task' ht
  by_cases he : other = pid
  case pos =>
    subst he
    simpa [LimitSystem.spawn] using LimitsHold.spawned
  case neg =>
    simp only [LimitSystem.spawn, ProcSystem.spawn, Function.update_of_ne he] at ht ⊢
    exact (h other task' ht).frame fun resource => by simp [inForce, Ne.symm he]

-- A step that only touches the limits of the task that makes it.
theorem Accounted.effect (h : system.Accounted history) (ht : system.procs.tasks pid = some task)
    {granted : Option (Nat × RLimit)} (he : (system.limits pid).Effect granted limits') :
    ({ system with limits := update system.limits pid limits' } : LimitSystem φ).Accounted
      ((granted.map fun (resource, limit) => .granted pid resource limit).toList ++ history) := by
  intro other task' ho
  cases granted
  case none =>
    have hl : limits' = system.limits pid := he
    rw [hl, Function.update_eq_self]
    exact h other task' ho
  case some request =>
    by_cases hp : other = pid
    case pos =>
      subst hp
      simpa using (h other task ht).granted he
    case neg =>
      simp only [Function.update_of_ne hp]
      exact (h other task' ho).frame fun resource => by simp [inForce, Ne.symm hp]

theorem Accounted.clone (h : system.Accounted history) (ht : system.procs.tasks pid = some task) {flags : BitVec 64}
    {written : Except SysErrNo Unit} :
    (system.apply arch pid task (.proc (.clone flags child written))).Accounted
      (system.entries pid task (.proc (.clone flags child written)) ++ history) := by
  simp only [LimitSystem.apply, inheritLimits, entries, ProcSystem.apply]
  cases system.procs.sysClone_cases task flags child written
  case inl hc =>
    obtain ⟨hr, _, _, hc⟩ := hc
    intro other task' ho
    rw [hr] at ⊢
    dsimp only at ho ⊢
    rw [hc.tasks] at ho
    by_cases he : other = child
    case pos =>
      subst he
      rw [Function.update_self]
      exact (h pid task ht).cloned
    case neg =>
      rw [Function.update_of_ne he] at ho ⊢
      exact (h other task' ho).frame fun resource => by simp [inForce, Ne.symm he]
  case inr hc =>
    obtain ⟨⟨error, hr⟩, hc, _⟩ := hc
    intro other task' ho
    rw [hr]
    dsimp only at ho ⊢
    exact h other task' (hc ▸ ho)

theorem Accounted.apply (h : system.Accounted history) (ht : system.procs.tasks pid = some task) :
    (system.apply arch pid task event).Accounted (system.entries pid task event ++ history) := by
  cases event
  case setrlimit user resource newLimit =>
    exact h.effect ht ((system.limits pid).sysSetrlimit_effect user resource newLimit)
  case prlimit64 user target resource newLimit oldLimit =>
    exact h.effect ht ((system.limits pid).sysPrlimit64_effect user pid task.tgid target resource newLimit oldLimit)
  case proc event =>
    cases event
    case clone => exact h.clone ht
    all_goals
      intro other task' ho
      simp only [LimitSystem.apply] at ho
      exact h other task' (ProcSystem.tasks_of_apply (by simp) ho)

theorem Reachable.accounted (h : Reachable arch allowed system history) : system.Accounted history := by
  induction h
  case boot hn => exact fun pid _ hp => absurd hp (by simp [hn pid])
  case spawn hi => exact hi.spawn
  case step ht _ _ hi => exact hi.apply ht

theorem ThreadsAgree.spawn (h : system.ThreadsAgree) (hf : system.procs.Free pid) {space : AddressSpace}
    {stdin stdout stderr : φ} : (system.spawn pid space stdin stdout stderr).ThreadsAgree := by
  intro a b ta tb ha hb he
  simp only [LimitSystem.spawn, ProcSystem.spawn, Function.update_apply] at ha hb ⊢
  split at ha <;> split at hb
  case isTrue.isTrue hap hbp => rw [if_pos hap, if_pos hbp]
  case isTrue.isFalse => cases ha; exact absurd he.symm (hf b tb hb).right
  case isFalse.isTrue => cases hb; exact absurd he (hf a ta ha).right
  case isFalse.isFalse hap hbp =>
    rw [if_neg hap, if_neg hbp]
    exact h a b ta tb ha hb he

-- A step of a task that leaves its limits, or has them to itself.
theorem ThreadsAgree.effect (h : system.ThreadsAgree) {granted : Option (Nat × RLimit)}
    (ht : system.procs.tasks pid = some task) (he : (system.limits pid).Effect granted limits')
    (ha : granted ≠ none → ∀ other task', system.procs.tasks other = some task' → task'.tgid = task.tgid →
      other = pid) :
    ({ system with limits := update system.limits pid limits' } : LimitSystem φ).ThreadsAgree := by
  cases granted
  case none =>
    have hl : limits' = system.limits pid := he
    rw [hl, Function.update_eq_self]
    exact h
  case some =>
    intro a b ta tb hta htb hg
    simp only [Function.update_apply]
    split <;> split
    case isTrue.isTrue => rfl
    case isTrue.isFalse hap hbp =>
      subst hap
      cases ht.symm.trans hta
      exact absurd (ha (by simp) b tb htb hg.symm) hbp
    case isFalse.isTrue hap hbp =>
      subst hbp
      cases ht.symm.trans htb
      exact absurd (ha (by simp) a ta hta hg) hap
    case isFalse.isFalse => exact h a b ta tb hta htb hg

theorem ThreadsAgree.clone (h : system.ThreadsAgree) (ht : system.procs.tasks pid = some task)
    (hf : system.procs.Free child) {flags : BitVec 64} {written : Except SysErrNo Unit} :
    (system.apply arch pid task (.proc (.clone flags child written))).ThreadsAgree := by
  simp only [LimitSystem.apply, inheritLimits, ProcSystem.apply]
  cases system.procs.sysClone_cases task flags child written
  case inl hc =>
    obtain ⟨hr, _, isThread, hc⟩ := hc
    -- The child is in the thread group of its parent, or alone in one of its own.
    have hchild (other : Nat) (task' : ProcTask) (ho : system.procs.tasks other = some task')
        (hg : task'.tgid = if isThread then task.tgid else child) : system.limits pid = system.limits other := by
      cases isThread
      case false => exact absurd hg (hf other task' ho).right
      case true => exact h pid other task task' ht ho hg.symm
    intro a b ta tb ha hb he
    dsimp only at ha hb ⊢
    rw [hr]
    dsimp only
    rw [hc.tasks] at ha hb
    simp only [Function.update_apply] at ha hb ⊢
    split at ha <;> split at hb
    case isTrue.isTrue => simp_all
    case isTrue.isFalse hac hbc =>
      cases ha
      rw [if_pos hac, if_neg hbc]
      exact hchild b tb hb he.symm
    case isFalse.isTrue hac hbc =>
      cases hb
      rw [if_neg hac, if_pos hbc]
      exact (hchild a ta ha he).symm
    case isFalse.isFalse hac hbc =>
      rw [if_neg hac, if_neg hbc]
      exact h a b ta tb ha hb he
  case inr hc =>
    obtain ⟨⟨error, hr⟩, hc, _⟩ := hc
    intro a b ta tb ha hb he
    rw [hr]
    dsimp only at ha hb ⊢
    exact h a b ta tb (hc ▸ ha) (hc ▸ hb) he

theorem ThreadsAgree.apply (h : system.ThreadsAgree) (ht : system.procs.tasks pid = some task)
    (hv : event.Valid system) (ha : system.SetsAlone pid task event) :
    (system.apply arch pid task event).ThreadsAgree := by
  cases event
  case setrlimit user resource newLimit =>
    exact h.effect ht ((system.limits pid).sysSetrlimit_effect user resource newLimit) ha
  case prlimit64 user target resource newLimit oldLimit =>
    exact h.effect ht ((system.limits pid).sysPrlimit64_effect user pid task.tgid target resource newLimit oldLimit) ha
  case proc event =>
    cases event
    case clone => exact h.clone ht hv
    all_goals
      intro a b ta tb hta htb
      simp only [LimitSystem.apply] at hta htb
      exact h a b ta tb (ProcSystem.tasks_of_apply (by simp) hta) (ProcSystem.tasks_of_apply (by simp) htb)

theorem Reachable.threadsAgree (h : Reachable arch SetsAlone system history) : system.ThreadsAgree := by
  induction h
  case boot hn => exact fun pid _ _ _ hp => absurd hp (by simp [hn pid])
  case spawn hf hi => exact hi.spawn hf
  case step ht hv ha hi => exact hi.apply ht hv ha

theorem Reachable.mono {allowed' : LimitSystem φ → Nat → ProcTask → Event φ → Prop}
    (h : Reachable arch allowed system history)
    (ha : ∀ system pid task event, allowed system pid task event → allowed' system pid task event) :
    Reachable arch allowed' system history := by
  induction h
  case boot hn => exact .boot hn
  case spawn hf hi => exact hi.spawn hf
  case step event _ ht hv hs hi => exact hi.step event ht hv (ha _ _ _ _ hs)

-- The limits of a task are ordered, capped, and what the task was last granted or has inherited, and its calls report
-- them. Threads agree on them where they are set by tasks that are alone in their thread group.
theorem Reachable.limitsHold (h : Reachable arch allowed system history) :
    (∀ pid task, system.procs.tasks pid = some task →
      LimitsHold history pid (system.limits pid) ∧ CallsAnswer pid task.tgid (system.limits pid)) ∧
    ((∀ system pid task event, allowed system pid task event → SetsAlone system pid task event) →
      system.ThreadsAgree) :=
  ⟨fun pid task ht => ⟨h.accounted pid task ht, TaskLimits.callsAnswer _ _ _⟩, fun ha => (h.mono ha).threadsAgree⟩

-- A memory that has one limit at every address.
def constantly (limit : RLimit) : UserLimits :=
  ⟨fun _ => .ok limit, fun _ => .ok ()⟩

def oneProcess : LimitSystem Unit :=
  LimitSystem.spawn ⟨ProcSystem.booted, fun _ => .new⟩ 1 ⟨.newBare, 0, 0, 0, 0⟩ () () ()

def lowered : LimitSystem Unit :=
  oneProcess.apply .riscv64 1 ⟨1, 0, 0, 0⟩ (.setrlimit (constantly ⟨16, 64⟩) RLIMIT_NOFILE 8)

-- The second thread has the limits that the first one had when it made it.
def twoThreads : LimitSystem Unit :=
  lowered.apply .riscv64 1 ⟨1, 0, 0, 0⟩ (.proc (.clone (Clone.vm ||| Clone.sighand ||| Clone.thread) 2 (.ok ())))

variable {allowed : LimitSystem Unit → Nat → ProcTask → Event Unit → Prop}

theorem oneProcess_reachable : Reachable .riscv64 allowed oneProcess [.spawned 1] :=
  .spawn (.boot fun _ => rfl) fun _ _ h => by cases h

theorem tasks_oneProcess {other : Nat} {task : ProcTask} (h : oneProcess.procs.tasks other = some task) :
    other = 1 ∧ task = ⟨1, 0, 0, 0⟩ := by
  by_cases he : other = 1
  case pos =>
    subst he
    exact ⟨rfl, (Option.some.inj h).symm⟩
  case neg => simp [oneProcess, LimitSystem.spawn, ProcSystem.booted, ProcSystem.spawn, he] at h

theorem lowered_reachable : Reachable .riscv64 SetsAlone lowered [.granted 1 RLIMIT_NOFILE ⟨16, 64⟩, .spawned 1] :=
  oneProcess_reachable.step (.setrlimit (constantly ⟨16, 64⟩) RLIMIT_NOFILE 8) rfl trivial
    fun _ _ _ ht _ => (tasks_oneProcess ht).left

theorem twoThreads_reachable : Reachable .riscv64 SetsAlone twoThreads
    [.cloned 1 2, .granted 1 RLIMIT_NOFILE ⟨16, 64⟩, .spawned 1] := by
  have hf : lowered.procs.Free 2 := by
    intro other task h
    have ⟨ho, ht⟩ := tasks_oneProcess h
    subst ho ht
    decide
  exact lowered_reachable.step (.proc (.clone (Clone.vm ||| Clone.sighand ||| Clone.thread) 2 (.ok ()))) rfl hf
    fun h => absurd rfl h

theorem twoThreads_limitsHold : twoThreads.procs.tasks 2 = some ⟨1, 0, 1, 0⟩ ∧
    LimitsHold [.cloned 1 2, .granted 1 RLIMIT_NOFILE ⟨16, 64⟩, .spawned 1] 2 (twoThreads.limits 2) ∧
    twoThreads.ThreadsAgree :=
  ⟨rfl, (twoThreads_reachable.limitsHold.left 2 _ rfl).left,
    twoThreads_reachable.limitsHold.right fun _ _ _ _ h => h⟩

-- A hard limit can be raised again, and a thread does not see what another one sets.
theorem limits_not_lawful :
    ¬(∀ (system : LimitSystem Unit) history, Reachable .riscv64 (fun _ _ _ _ => True) system history →
      system.NeverRaises .riscv64) ∧
    ¬(∀ (system : LimitSystem Unit) history, Reachable .riscv64 (fun _ _ _ _ => True) system history →
      system.ThreadsAgree) := by
  constructor
  case left =>
    intro h
    have hr := h lowered _ (lowered_reachable.mono fun _ _ _ _ _ => trivial) 1 ⟨1, 0, 0, 0⟩
      (.setrlimit (constantly ⟨16, 1024⟩) RLIMIT_NOFILE 8) RLIMIT_NOFILE rfl trivial (.inl rfl)
    exact absurd hr (by decide)
  case right =>
    intro h
    let event : Event Unit := .setrlimit (constantly ⟨8, 8⟩) RLIMIT_NOFILE 8
    have hr : Reachable .riscv64 (fun _ _ _ _ => True) (twoThreads.apply .riscv64 1 ⟨1, 0, 0, 0⟩ event) _ :=
      .step event (twoThreads_reachable.mono fun _ _ _ _ _ => trivial) rfl trivial trivial
    have ha := congrArg TaskLimits.rlimitNofile (h _ _ hr 1 2 ⟨1, 0, 0, 0⟩ ⟨1, 0, 1, 0⟩ rfl rfl rfl)
    exact absurd ha (by decide)

end LimitSystem

end WllOs
