import WllOs.Task.Vfork

namespace WllOs

open Function (update)

-- The task whose end or new program a context makes known.
def VforkPc.released? : VforkPc → Option Nat
  | release task _ | wakeDeferred _ task _ | wakeDeferredWrite _ task _ => some task
  | _                                                                  => none

namespace VforkTask

variable {task task' : VforkTask}

def Done (task : VforkTask) : Prop :=
  task.hasExeced = true ∨ task.exited = true

-- What holds of a task that is suspended, by its place in `sys_clone`. It is running or it is out of the way, and it
-- does not run its program.
def SuspendedAt (task : VforkTask) : VforkPc → Prop
  | .prepare _  => task.status ≠ .ready ∧ task.status ≠ .blocked
  | .announce _ => task.status ≠ .ready ∧ task.status ≠ .blocked ∧ task.waitOutcome = none
  | .publish _ | .commit | .take | .block =>
    task.status ≠ .ready ∧ task.waitOutcome = none ∧ (task.status = .running → task.blockReason = some .childExit)
  | .recheck => task.status ≠ .ready ∧ task.status ≠ .running ∧ task.waitOutcome = none
  | .clear | .user => task.status ≠ .ready ∧ task.status ≠ .running
  | _ => False

end VforkTask

namespace VforkSystem

variable {s s' : VforkSystem} {ctx : KernelCtx} {act : VforkAct} {pc : VforkPc} {t p child : Nat} {task : VforkTask}

structure Inv (s : VforkSystem) : Prop where
  suspended : ∀ p child, s.Suspended p child → (s.tasks p).SuspendedAt (s.pc (.task p))
  -- A child has executed a new program or exited before it is released.
  released : ∀ ctx task, (s.pc ctx).released? = some task → (s.tasks task).Done
  child : ∀ p child, (s.tasks p).vforkChild = some child → child < s.next
  used : ∀ t, (s.tasks t).Done → t < s.next

theorem Suspended.not_done (h : s.Suspended p child) : ¬(s.tasks child).Done := by
  intro hd
  cases hd
  case inl hd => exact absurd (h.execed.symm.trans hd) nofun
  case inr hd => exact absurd (h.exited.symm.trans hd) nofun

theorem Inv.waits (h : s.Inv) : s.Waits := by
  intro p child hs hp
  have ⟨hr, hn⟩ : (s.tasks p).status ≠ .ready ∧ (s.tasks p).status ≠ .running := by
    simpa [hp, VforkTask.SuspendedAt] using h.suspended p child hs
  exact ⟨hn, hr⟩

-- The fields that only change one way.
structure Ages (task task' : VforkTask) : Prop where
  vforkChild : task'.vforkChild = task.vforkChild
  execed : task.hasExeced = true → task'.hasExeced = true
  exited : task.exited = true → task'.exited = true

theorem Ages.done {task' : VforkTask} (h : Ages task task') (hd : task.Done) : task'.Done :=
  hd.imp h.execed h.exited

theorem Ages.refl (task : VforkTask) : Ages task task :=
  ⟨rfl, id, id⟩

theorem ages_update (h : Ages (s.tasks t) task) (t' : Nat) : Ages (s.tasks t') (update s.tasks t task t') := by
  by_cases he : t' = t
  case pos => subst he; rwa [Function.update_self]
  case neg => rw [Function.update_of_ne he]; exact .refl _

theorem Suspended.of_ages (h : s'.Suspended p child) (ha : ∀ t, Ages (s.tasks t) (s'.tasks t)) :
    s.Suspended p child where
  vforkChild := (ha p).vforkChild.symm.trans h.vforkChild
  alive := Bool.not_eq_true _ ▸ fun he => absurd (h.alive.symm.trans ((ha p).exited he)) nofun
  execed := Bool.not_eq_true _ ▸ fun he => absurd (h.execed.symm.trans ((ha child).execed he)) nofun
  exited := Bool.not_eq_true _ ▸ fun he => absurd (h.exited.symm.trans ((ha child).exited he)) nofun

-- A step of a context that changes one task.
theorem Inv.change (h : s.Inv) (ha : Ages (s.tasks t) task) (hu : task.Done → t < s.next)
    (hr : ∀ task', pc.released? = some task' → (update s.tasks t task task').Done)
    (hs : ∀ p child, s.Suspended p child → p = t ∨ ctx = .task p →
      (update s.tasks t task p).SuspendedAt (update s.pc ctx pc (.task p))) :
    ((s.setTask t task).goto ctx pc).Inv := by
  have hages := ages_update ha
  refine ⟨fun p child hp => ?_, fun ctx' task' hc => ?_, fun p child hp => ?_, fun t' hd => ?_⟩
  case refine_1 =>
    have hp' : s.Suspended p child := hp.of_ages hages
    by_cases hpt : p = t ∨ ctx = .task p
    case pos => exact hs p child hp' hpt
    case neg =>
      have ⟨hpt, hct⟩ := not_or.mp hpt
      simp only [goto, setTask]
      rw [Function.update_of_ne hpt, Function.update_of_ne (Ne.symm hct)]
      exact h.suspended p child hp'
  case refine_2 =>
    simp only [goto, setTask] at hc ⊢
    by_cases he : ctx' = ctx
    case pos =>
      rw [he, Function.update_self] at hc
      exact hr task' hc
    case neg =>
      rw [Function.update_of_ne he] at hc
      exact (hages task').done (h.released ctx' task' hc)
  case refine_3 => exact h.child p child ((hages p).vforkChild.symm.trans hp)
  case refine_4 =>
    simp only [VforkSystem.goto, VforkSystem.setTask] at hd ⊢
    by_cases he : t' = t
    case pos => rw [he, Function.update_self] at hd; exact he ▸ hu hd
    case neg => rw [Function.update_of_ne he] at hd; exact h.used t' hd

-- A step of a context that is in no `vfork` of its own.
theorem Inv.foreign (h : s.Inv) (ha : Ages (s.tasks t) task) (hu : task.Done → t < s.next)
    (hc : ∀ p child, ctx = .task p → ¬s.Suspended p child)
    (hr : ∀ task', pc.released? = some task' → (update s.tasks t task task').Done)
    (hs : ∀ child, s.Suspended t child → (s.tasks t).SuspendedAt (s.pc (.task t)) →
      task.SuspendedAt (s.pc (.task t))) : ((s.setTask t task).goto ctx pc).Inv := by
  refine h.change ha hu hr fun p child hp hpt => ?_
  have hct : .task p ≠ ctx := fun he => hc p child he.symm hp
  cases hpt
  case inl he =>
    subst he
    rw [Function.update_self, Function.update_of_ne hct]
    exact hs child hp (h.suspended p child hp)
  case inr he => exact absurd he.symm hct

-- A step of a task in `sys_clone` on itself.
theorem Inv.own (h : s.Inv) (ha : Ages (s.tasks t) task) (hu : task.Done → t < s.next) (hr : pc.released? = none)
    (hs : ∀ child, s.Suspended t child → (s.tasks t).SuspendedAt (s.pc (.task t)) → task.SuspendedAt pc) :
    ((s.setTask t task).goto (.task t) pc).Inv := by
  refine h.change ha hu (fun _ hc => absurd (hr.symm.trans hc) nofun) fun p child hp hpt => ?_
  have he : p = t := hpt.elim id fun he => (KernelCtx.task.inj he).symm
  subst he
  rw [Function.update_self, Function.update_self]
  exact hs child hp (h.suspended p child hp)

theorem goto_pc (s : VforkSystem) (ctx : KernelCtx) (pc : VforkPc) (t : Nat) :
    s.goto ctx pc = (s.setTask t (s.tasks t)).goto ctx pc := by
  simp only [setTask, Function.update_eq_self]

theorem Inv.goto (h : s.Inv) (hr : ∀ task', pc.released? = some task' → (s.tasks task').Done)
    (hc : ∀ p child, ctx = .task p → ¬s.Suspended p child) : (s.goto ctx pc).Inv := by
  rw [goto_pc s ctx pc 0]
  refine h.foreign (.refl _) (h.used _) hc (fun task' ht => ?_) fun _ _ hs => hs
  rw [Function.update_eq_self]
  exact hr task' ht

theorem Inv.ownGoto (h : s.Inv) (hr : pc.released? = none)
    (hs : ∀ child, s.Suspended t child → (s.tasks t).SuspendedAt (s.pc (.task t)) → (s.tasks t).SuspendedAt pc) :
    (s.goto (.task t) pc).Inv := by
  rw [goto_pc s (.task t) pc t]
  exact h.own (.refl _) (h.used _) hr hs

theorem Inv.publish (h : s.Inv) (hp : s.pc (.task t) = .publish child) :
    ((s.setTask child { s.tasks child with queued := true }).goto (.task t) .commit).Inv := by
  refine h.change ⟨rfl, id, id⟩ (h.used _) nofun fun p child' hs hpt => ?_
  have ho := h.suspended p child' hs
  by_cases hpt : p = t
  case pos =>
    subst hpt
    rw [hp] at ho
    rw [Function.update_self]
    by_cases he : p = child
    case pos => subst he; rw [Function.update_self]; exact ho
    case neg => rw [Function.update_of_ne he]; exact ho
  case neg =>
    rw [Function.update_of_ne (fun he => hpt (KernelCtx.task.inj he))]
    by_cases he : p = child
    case pos =>
      subst he
      rw [Function.update_self]
      exact ho
    case neg => rwa [Function.update_of_ne he]

theorem Inv.commit (h : s.Inv) (hp : s.pc (.task t) = .commit) :
    (s.goto (.task t) (if (s.tasks t).blockReason = some .childExit then .take else .user)).Inv := by
  refine h.ownGoto (by split <;> rfl) fun _ _ hs => ?_
  split <;> simp_all [VforkTask.SuspendedAt]

-- A task in `sys_clone` goes on with it.
theorem Inv.advanceClone (h : s.Inv) (hs : s.advanceClone t (s.pc (.task t)) = some s') : s'.Inv := by
  cases hp : s.pc (.task t) <;> rw [hp] at hs
  case prepare => cases hs; exact h.own ⟨rfl, id, id⟩ (h.used _) rfl fun _ _ hs => by simp_all [VforkTask.SuspendedAt]
  case announce => cases hs; exact h.own ⟨rfl, id, id⟩ (h.used _) rfl fun _ _ hs => by simp_all [VforkTask.SuspendedAt]
  case publish => cases hs; exact h.publish hp
  case commit => cases hs; exact h.commit hp
  case take =>
    simp only [VforkSystem.advanceClone] at hs
    split at hs <;> cases hs
    case isTrue => exact h.own ⟨rfl, id, id⟩ (h.used _) rfl fun _ _ hs => by simp_all [VforkTask.SuspendedAt]
    case isFalse => exact h.ownGoto rfl fun _ _ hs => by simp_all [VforkTask.SuspendedAt]
  case block =>
    simp only [VforkSystem.advanceClone] at hs
    split at hs
    case isTrue => cases hs
    case isFalse =>
      split at hs <;> cases hs
      case isTrue => exact h.own ⟨rfl, id, id⟩ (h.used _) rfl fun _ _ hs => by simp_all [VforkTask.SuspendedAt]
      case isFalse => exact h.ownGoto rfl fun _ _ hs => by simp_all [VforkTask.SuspendedAt]
  case recheck =>
    simp only [VforkSystem.advanceClone] at hs
    split at hs <;> cases hs
    case isTrue => exact h.own ⟨rfl, id, id⟩ (h.used _) rfl fun _ _ hs => by simp_all [VforkTask.SuspendedAt]
    case isFalse => exact h.ownGoto rfl fun _ _ hs => by simp_all [VforkTask.SuspendedAt]
  case unblock =>
    simp only [VforkSystem.advanceClone] at hs
    split at hs
    case isTrue => cases hs
    case isFalse =>
      split at hs <;> cases hs
      case isTrue => exact h.own ⟨rfl, id, id⟩ (h.used _) rfl fun _ _ hs => by simp_all [VforkTask.SuspendedAt]
      case isFalse => exact h.ownGoto rfl fun _ _ hs => by simp_all [VforkTask.SuspendedAt]
  case clear => cases hs; exact h.own ⟨rfl, id, id⟩ (h.used _) rfl fun _ _ hs => by simp_all [VforkTask.SuspendedAt]
  all_goals cases hs

-- Where a context is outside `sys_clone`, its task is not suspended.
theorem Inv.away (h : s.Inv) (hp : s.pc ctx = pc) (ha : ∀ task, ¬VforkTask.SuspendedAt task pc) :
    ∀ p child, ctx = .task p → ¬s.Suspended p child :=
  fun p child he hs => ha (s.tasks p) (hp ▸ he ▸ h.suspended p child hs)

theorem Inv.release (h : s.Inv) {tail : ReleaseTail} {by' : Nat} (hp : s.pc ctx = .release by' tail)
    (hs : s.advance ctx (.release by' tail) = some s') : s'.Inv := by
  have hc := h.away hp fun _ => id
  have hd := h.released ctx by' (by rw [hp]; rfl)
  simp only [advance] at hs
  split at hs <;> cases hs
  case h_1 => exact h.goto (fun _ ht => by cases ht; exact hd) hc
  case h_2 => exact h.goto (fun _ ht => by cases tail <;> cases ht) hc

theorem Inv.wakeDeferred (h : s.Inv) {tail : ReleaseTail} {target by' : Nat}
    (hp : s.pc ctx = .wakeDeferred target by' tail)
    (hs : s.advance ctx (.wakeDeferred target by' tail) = some s') : s'.Inv := by
  have hc := h.away hp fun _ => id
  have hd := h.released ctx by' (by rw [hp]; rfl)
  simp only [advance] at hs
  split at hs
  case isTrue => cases hs
  case isFalse =>
    split at hs <;> cases hs
    case isTrue =>
      have ha : Ages (s.tasks target) { s.tasks target with statusLock := some ctx } := ⟨rfl, id, id⟩
      exact h.foreign ha (h.used _) hc (fun _ ht => by cases ht; exact (ages_update ha by').done hd) fun _ _ hs => hs
    case isFalse => exact h.goto (fun _ ht => by cases tail <;> cases ht) hc

-- The release by the child itself comes after its new program or its exit.
theorem Inv.wakeDeferredWrite (h : s.Inv) {tail : ReleaseTail} {target by' : Nat}
    (hp : s.pc ctx = .wakeDeferredWrite target by' tail) (hk : s.KeepsSuspended ctx .run)
    (hs : s.advance ctx (.wakeDeferredWrite target by' tail) = some s') : s'.Inv := by
  have hc := h.away hp fun _ => id
  have hd := h.released ctx by' (by rw [hp]; rfl)
  simp only [KeepsSuspended, hp] at hk
  have hpre : ∀ child, s.Suspended target child → ∃ child', s.pc (.task target) = .prepare child' := by
    intro child hs
    cases hk child hs
    case inl he => exact absurd (he ▸ hd) hs.not_done
    case inr he => exact he
  simp only [advance] at hs
  split at hs <;> cases hs
  case isTrue =>
    refine h.foreign ⟨rfl, id, id⟩ (h.used _) hc (fun _ ht => by cases tail <;> cases ht) fun child hs ho => ?_
    have ⟨_, he⟩ := hpre child hs
    rw [he] at ho ⊢
    exact ho
  case isFalse hb =>
    refine h.foreign ⟨rfl, id, id⟩ (h.used _) hc (fun _ ht => by cases tail <;> cases ht) fun child hs ho => ?_
    have ⟨_, he⟩ := hpre child hs
    rw [he] at ho
    exact absurd (not_not.mp hb) ho.right

theorem adopt_eq (s : VforkSystem) (group t : Nat) : ∃ parent, s.adopt group t = { s.tasks t with parent } := by
  simp only [adopt]
  split <;> exact ⟨_, rfl⟩

-- Nothing that the invariant is about depends on the parents of tasks.
theorem Inv.adopt (h : s.Inv) {group : Nat} : Inv { s with tasks := s.adopt group } := by
  have ha : ∀ t, Ages (s.tasks t) (s.adopt group t) := by
    intro t
    have ⟨_, he⟩ := s.adopt_eq group t
    rw [he]
    exact ⟨rfl, id, id⟩
  refine ⟨fun p child hp => ?_, fun ctx task hc => (ha task).done (h.released ctx task hc), fun p child hp => ?_,
    fun t hd => ?_⟩
  case refine_1 =>
    have ho := h.suspended p child (hp.of_ages ha)
    have ⟨_, he⟩ := s.adopt_eq group p
    dsimp only
    rw [he]
    exact ho
  case refine_2 => exact h.child p child ((ha p).vforkChild.symm.trans hp)
  case refine_3 =>
    have ⟨_, he⟩ := s.adopt_eq group t
    dsimp only at hd
    rw [he] at hd
    exact h.used t hd

theorem Inv.orphans (h : s.Inv) {group : Nat} {parent : Option Nat} (hp : s.pc ctx = .orphans group parent)
    (hs : s.advance ctx (.orphans group parent) = some s') : s'.Inv := by
  cases hs
  exact h.adopt.goto nofun (h.adopt.away hp fun _ => id)

theorem Inv.directed (h : s.Inv) {parent : Option Nat} (hp : s.pc ctx = .directed parent)
    (hs : s.advance ctx (.directed parent) = some s') : s'.Inv := by
  have hc := h.away hp fun _ => id
  cases parent
  case none => cases hs; exact h.goto nofun hc
  case some =>
    cases hs
    split
    case isTrue => exact h.goto nofun hc
    case isFalse => exact h.goto nofun hc

theorem Inv.wake (h : s.Inv) {target : Nat} {outcome : WaitOutcome} (hp : s.pc ctx = .wake target outcome)
    (hs : s.advance ctx (.wake target outcome) = some s') : s'.Inv := by
  have hc := h.away hp fun _ => id
  simp only [VforkSystem.advance] at hs
  split at hs
  case isTrue => cases hs
  case isFalse =>
    split at hs <;> cases hs
    case isTrue => exact h.goto nofun hc
    case isFalse => exact h.foreign ⟨rfl, id, id⟩ (h.used _) hc nofun fun _ _ hs => hs

theorem Inv.wakeWrite (h : s.Inv) {target : Nat} {outcome : WaitOutcome} (hp : s.pc ctx = .wakeWrite target outcome)
    (hk : s.KeepsSuspended ctx .run) (hs : s.advance ctx (.wakeWrite target outcome) = some s') : s'.Inv := by
  have hc := h.away hp fun _ => id
  simp only [KeepsSuspended, hp] at hk
  simp only [VforkSystem.advance] at hs
  split at hs <;> cases hs
  case isTrue =>
    refine h.foreign ⟨rfl, id, id⟩ (h.used _) hc nofun fun child hs ho => ?_
    have ⟨_, he⟩ := hk child hs
    rw [he] at ho ⊢
    exact ho
  case isFalse hb =>
    refine h.foreign ⟨rfl, id, id⟩ (h.used _) hc nofun fun child hs ho => ?_
    have ⟨_, he⟩ := hk child hs
    rw [he] at ho
    exact absurd (not_not.mp hb) ho.right

-- A task that is suspended may be stopped, but not continued.
theorem Inv.stopping (h : s.Inv) {target : Nat} (hp : s.pc ctx = .stopping target)
    (hs : s.advance ctx (.stopping target) = some s') : s'.Inv := by
  have hc := h.away hp fun _ => id
  simp only [VforkSystem.advance] at hs
  split at hs <;> cases hs
  refine h.foreign ⟨rfl, id, id⟩ (h.used _) hc nofun fun _ _ ho => ?_
  generalize s.pc (.task target) = pc at ho ⊢
  cases pc <;> simp_all [VforkTask.SuspendedAt]

theorem Inv.continuing (h : s.Inv) {target : Nat} (hp : s.pc ctx = .continuing target)
    (hk : s.KeepsSuspended ctx .run) (hs : s.advance ctx (.continuing target) = some s') : s'.Inv := by
  have hc := h.away hp fun _ => id
  simp only [KeepsSuspended, hp] at hk
  simp only [VforkSystem.advance] at hs
  split at hs <;> cases hs
  exact h.foreign ⟨rfl, id, id⟩ (h.used _) hc nofun fun child hs _ => absurd hs (hk child)

theorem Inv.advance (h : s.Inv) (hk : s.KeepsSuspended ctx .run) (hs : s.advance ctx (s.pc ctx) = some s') :
    s'.Inv := by
  cases hpc : s.pc ctx <;> rw [hpc] at hs
  case user => cases hs
  case release => exact h.release hpc hs
  case wakeDeferred => exact h.wakeDeferred hpc hs
  case wakeDeferredWrite => exact h.wakeDeferredWrite hpc hk hs
  case orphans => exact h.orphans hpc hs
  case directed => exact h.directed hpc hs
  case wake => exact h.wake hpc hs
  case wakeWrite => exact h.wakeWrite hpc hk hs
  case stopping => exact h.stopping hpc hs
  case continuing => exact h.continuing hpc hk hs
  -- The other places are those of `sys_clone`.
  all_goals
    cases ctx
    case task t => exact h.advanceClone (by rw [hpc]; exact hs)
    case interrupt => cases hs

theorem Inv.setTask (h : s.Inv) (ha : Ages (s.tasks t) task) (hu : task.Done → t < s.next)
    (hs : ∀ child, s.Suspended t child → (s.tasks t).SuspendedAt (s.pc (.task t)) →
      task.SuspendedAt (s.pc (.task t))) : (s.setTask t task).Inv := by
  have he : s.setTask t task = (s.setTask t task).goto (.task t) (s.pc (.task t)) := by
    simp only [VforkSystem.goto, VforkSystem.setTask, Function.update_eq_self]
  rw [he]
  refine h.change ha hu (fun task' ht => (ages_update ha task').done (h.released _ task' ht)) fun p child hp hpt => ?_
  have he : p = t := hpt.elim id fun he => (KernelCtx.task.inj he).symm
  subst he
  rw [Function.update_self, Function.update_self]
  exact hs child hp (h.suspended p child hp)

theorem Inv.not_suspended (h : s.Inv) (hp : s.pc ctx = .user) (hm : s.mayAct ctx) :
    ∀ p child, ctx = .task p → ¬s.Suspended p child := by
  intro p child he hs
  subst he
  have ho := h.suspended p child hs
  rw [hp] at ho
  simp only [mayAct, runsUser, Bool.and_eq_true, Bool.or_eq_true, decide_eq_true_eq] at hm
  cases hm.right
  case inl hr => exact ho.right hr
  case inr hx => exact absurd (hs.alive.symm.trans hx) nofun

-- The ends of tasks leave nothing that could be scheduled.
theorem Inv.zombie (h : s.Inv) (ht : t < s.next) : (s.setTask t { s.tasks t with
    status := .zombie, blockReason := none, waitOutcome := none, queued := false, exited := true }).Inv := by
  refine h.setTask ⟨rfl, id, fun _ => rfl⟩ (fun _ => ht) fun _ _ ho => ?_
  generalize s.pc (.task t) = pc at ho ⊢
  cases pc <;> simp_all [VforkTask.SuspendedAt]

theorem Inv.finish (h : s.Inv) (hc : ∀ p child, ctx = .task p → ¬s.Suspended p child) {target : Nat}
    (hx : (s.tasks target).exited = true) {processZombie : Nat → Bool} {tail : ReleaseTail} :
    ({ s with processZombie }.goto ctx (.release target tail)).Inv := by
  have hi : Inv { s with processZombie } :=
    ⟨fun p child hp => h.suspended p child ⟨hp.vforkChild, hp.alive, hp.execed, hp.exited⟩, h.released, h.child,
      h.used⟩
  refine hi.goto (fun _ ht => by cases ht; exact .inr hx) fun p child he hp => ?_
  exact hc p child he ⟨hp.vforkChild, hp.alive, hp.execed, hp.exited⟩

theorem tasks_clone {isVfork isThread : Bool} {t' : Nat} (hn : t' ≠ s.next) :
    (s.clone t isVfork isThread).tasks t' = if t' = t then { s.tasks t with
      vforkChild := if isVfork then some s.next else (s.tasks t).vforkChild } else s.tasks t' := by
  simp only [VforkSystem.clone, VforkSystem.goto]
  by_cases he : t' = t
  case pos => subst he; rw [Function.update_self, if_pos rfl]
  case neg => rw [Function.update_of_ne he, Function.update_of_ne hn, if_neg he]

theorem child_clone {isVfork isThread : Bool} (ht : t < s.next) :
    ((s.clone t isVfork isThread).tasks s.next).vforkChild = none ∧
      ¬((s.clone t isVfork isThread).tasks s.next).Done := by
  simp only [VforkSystem.clone, VforkSystem.goto]
  rw [Function.update_of_ne (Nat.ne_of_gt ht), Function.update_self]
  exact ⟨rfl, fun hd => hd.elim nofun nofun⟩

theorem done_clone {isVfork isThread : Bool} {t' : Nat} (hn : t' ≠ s.next) :
    ((s.clone t isVfork isThread).tasks t').Done ↔ (s.tasks t').Done := by
  rw [tasks_clone hn]
  split
  case isTrue he => subst he; exact .rfl
  case isFalse => exact .rfl

-- A task that makes a child is not suspended, and the child of another task that is suspended is not the new one.
theorem Inv.clone (h : s.Inv) (hp : s.pc (.task t) = .user) (hr : (s.tasks t).status = .running) (ht : t < s.next)
    {isVfork isThread : Bool} : (s.clone t isVfork isThread).Inv := by
  have hn : ∀ child, ¬s.Suspended t child := fun child =>
    h.not_suspended hp (by simp [mayAct, runsUser, hr, ht]) t child rfl
  have hpc : ∀ ctx, (s.clone t isVfork isThread).pc ctx =
      if ctx = .task t then (if isVfork then .prepare s.next else .user) else s.pc ctx := by
    intro ctx
    exact Function.update_apply ..
  refine ⟨fun p child hs => ?_, fun ctx task hc => ?_, fun p child hs => ?_, fun t' hd => ?_⟩
  case refine_1 =>
    have hpn : p ≠ s.next := fun he =>
      absurd ((he ▸ child_clone ht).left.symm.trans hs.vforkChild) nofun
    have hold : ∀ child', (s.tasks p).vforkChild = some child' → child' = child → s.Suspended p child' := by
      intro child' hv he
      subst he
      have hcn : child' ≠ s.next := Nat.ne_of_lt (h.child p child' hv)
      have hnd : ¬(s.tasks child').Done := fun hd => hs.not_done ((done_clone hcn).mpr hd)
      have ha : (s.tasks p).exited = false := by
        have := hs.alive
        rw [tasks_clone hpn] at this
        split at this
        case isTrue he => rw [he]; exact this
        case isFalse => exact this
      simp only [VforkTask.Done, not_or, Bool.not_eq_true] at hnd
      exact ⟨hv, ha, hnd.left, hnd.right⟩
    have hv := hs.vforkChild
    rw [tasks_clone hpn] at hv ⊢
    by_cases he : p = t
    case pos =>
      subst he
      rw [if_pos rfl] at hv ⊢
      cases isVfork
      case false => exact absurd (hold child hv rfl) (hn child)
      case true =>
        rw [hpc, if_pos rfl, if_pos rfl]
        simp [VforkTask.SuspendedAt, hr]
    case neg =>
      rw [if_neg he] at hv ⊢
      rw [hpc, if_neg fun hc => he (KernelCtx.task.inj hc)]
      exact h.suspended p child (hold child hv rfl)
  case refine_2 =>
    rw [hpc] at hc
    split at hc
    case isTrue => split at hc <;> cases hc
    case isFalse =>
      have hd := h.released ctx task hc
      exact (done_clone (Nat.ne_of_lt (h.used task hd))).mpr hd
  case refine_3 =>
    by_cases hpn : p = s.next
    case pos => exact absurd ((hpn ▸ child_clone ht).left.symm.trans hs) nofun
    case neg =>
      rw [tasks_clone hpn] at hs
      by_cases he : p = t
      case pos =>
        rw [if_pos he] at hs
        cases isVfork
        case false => exact Nat.lt_succ_of_lt (h.child t child hs)
        case true => cases hs; exact Nat.lt_succ_self _
      case neg =>
        rw [if_neg he] at hs
        exact Nat.lt_succ_of_lt (h.child p child hs)
  case refine_4 =>
    by_cases htn : t' = s.next
    case pos => exact absurd hd (htn ▸ (child_clone ht).right)
    case neg => exact Nat.lt_succ_of_lt (h.used t' ((done_clone htn).mp hd))

theorem Inv.startOwn (h : s.Inv) (hp : s.pc (.task t) = .user) (hr : (s.tasks t).status = .running) (ht : t < s.next)
    (hs : s.startOwn t act = some s') : s'.Inv := by
  have hn : ∀ child, ¬s.Suspended t child := fun child =>
    h.not_suspended hp (by simp [mayAct, runsUser, hr, ht]) t child rfl
  cases act
  case yield =>
    simp only [VforkSystem.startOwn] at hs
    split at hs <;> cases hs
    exact h.setTask ⟨rfl, id, id⟩ (h.used _) fun child hs => absurd hs (hn child)
  case sleep =>
    simp only [VforkSystem.startOwn] at hs
    split at hs <;> cases hs
    exact h.setTask ⟨rfl, id, id⟩ (h.used _) fun child hs => absurd hs (hn child)
  case clone => cases hs; exact h.clone hp hr ht
  case exec =>
    cases hs
    refine h.foreign ⟨rfl, fun _ => rfl, id⟩ (fun _ => ht) (fun p child he => ?_) (fun _ ht => ?_) fun child hs => absurd hs (hn child)
    case refine_1 => exact KernelCtx.task.inj he ▸ hn child
    case refine_2 =>
      cases ht
      rw [Function.update_self]
      exact .inl rfl
  case exit =>
    simp only [VforkSystem.startOwn] at hs
    split at hs <;> cases hs
    exact h.zombie ht
  all_goals cases hs

theorem Inv.start (h : s.Inv) (hp : s.pc ctx = .user) (hm : s.mayAct ctx) (hs : s.start ctx act = some s') :
    s'.Inv := by
  have hc := h.not_suspended hp hm
  cases act
  case kill target =>
    simp only [VforkSystem.start] at hs
    split at hs <;> cases hs
    case isFalse hl => exact h.zombie (by simp at hl; omega)
  case finish target =>
    simp only [VforkSystem.start] at hs
    split at hs <;> cases hs
    case isFalse hx => exact h.finish hc (And.left (by simpa using hx))
  case wake =>
    simp only [VforkSystem.start] at hs
    split at hs <;> cases hs
    exact h.goto nofun hc
  case stop =>
    simp only [VforkSystem.start] at hs
    split at hs <;> cases hs
    exact h.goto nofun hc
  case «continue» =>
    simp only [VforkSystem.start] at hs
    split at hs <;> cases hs
    exact h.goto nofun hc
  -- The other calls are made by tasks that run.
  all_goals
    cases ctx
    case task t =>
      simp only [VforkSystem.start] at hs
      split at hs
      case isTrue hr =>
        simp only [mayAct, Bool.and_eq_true, decide_eq_true_eq] at hm
        exact h.startOwn hp (by simpa [runsUser] using hr) hm.left hs
      case isFalse => cases hs
    case interrupt => cases hs

theorem Inv.schedule (h : s.Inv) (hs : s.schedule t = some s') : s'.Inv := by
  unfold VforkSystem.schedule at hs
  cases hp : s.pc (.task t) <;> rw [hp] at hs
  case user =>
    dsimp only at hs
    split at hs <;> cases hs
    case isTrue hr =>
      refine h.setTask ⟨rfl, id, id⟩ (h.used _) fun child hs ho => ?_
      rw [hp] at ho
      simp only [Bool.and_eq_true, decide_eq_true_eq] at hr
      exact absurd hr.left.left ho.left
  all_goals cases hs

theorem Inv.step (h : s.Inv) (hk : s.KeepsSuspended ctx act) (hs : s.step ctx act = some s') : s'.Inv := by
  simp only [VforkSystem.step] at hs
  split at hs
  case h_1 => exact h.advance hk hs
  case h_2 hp =>
    split at hs
    case isTrue hm => exact h.start hp hm hs
    case isFalse => cases hs
  case h_3 => cases hs

theorem initial_inv : initial.Inv where
  suspended _ _ hs := by cases hs.vforkChild
  released _ _ hc := by cases hc
  child _ _ hs := by cases hs
  used _ hd := hd.elim nofun nofun

theorem Reachable.inv (h : Reachable KeepsSuspended s) : s.Inv := by
  induction h
  case initial => exact initial_inv
  case step hk hs hi => exact hi.step hk hs
  case schedule hs hi => exact hi.schedule hs

theorem Reachable.run {p : VforkSystem → KernelCtx → VforkAct → Prop} (h : Reachable p s) (hk : p s ctx .run)
    (hs : s.advance ctx (s.pc ctx) = some s') : Reachable p s' :=
  h.step hk (by simpa only [VforkSystem.step] using hs)

end VforkSystem

end WllOs
