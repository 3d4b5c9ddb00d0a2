import WllOs.Fs.Theorems.FdTable
import WllOs.Task.Exec
import WllOs.Task.Theorems.Signal

namespace WllOs.ProcSystem

open Function (update)

variable {φ : Type} {system system' : ProcSystem φ} {arch : Arch} {allowed : Event φ → Prop} {pid other child : Nat}
variable {task task' : ProcTask} {image : MemorySet} {frames : Frames} {flags : BitVec 64} {event : Event φ}

-- The task that a clone makes, and the handles of its own.
structure Cloned (system : ProcSystem φ) (task : ProcTask) (flags : BitVec 64) (child : Nat) (shareVm isThread : Bool)
    (system' : ProcSystem φ) : Prop where
  kind : ShmSystem.cloneKind flags = .ok (shareVm, isThread)
  tasks : system'.tasks = update system.tasks child (some {
    tgid := if isThread then task.tgid else child
    space := if shareVm then task.space else system.next
    fdTable := if flags &&& Clone.files ≠ 0 then task.fdTable else system.next
    signalActions := if flags &&& Clone.sighand ≠ 0 then task.signalActions else system.next })
  next : system'.next = system.next + 1
  fdTables : system'.fdTables =
    if flags &&& Clone.files ≠ 0 then system.fdTables
    else update system.fdTables system.next (system.fdTables task.fdTable)

theorem forkSpace_spec (system : ProcSystem φ) (task : ProcTask) (shareVm : Bool) :
    (system.forkSpace task shareVm).snd.tasks = system.tasks ∧
    (system.forkSpace task shareVm).snd.fdTables = system.fdTables ∧
    (system.forkSpace task shareVm).snd.next = system.next ∧
    ∀ space, (system.forkSpace task shareVm).fst = .ok space →
      space = if shareVm then task.space else system.next := by
  simp only [forkSpace]
  split
  case isTrue => simp_all [eq_comm]
  case isFalse => split <;> simp_all [eq_comm]

theorem dupFdTable_spec (system : ProcSystem φ) (task : ProcTask) (share : Bool) :
    (system.dupFdTable task share).snd.tasks = system.tasks ∧
    (system.dupFdTable task share).snd.next = system.next ∧
    (system.dupFdTable task share).fst = (if share then task.fdTable else system.next) ∧
    (system.dupFdTable task share).snd.fdTables =
      if share then system.fdTables else update system.fdTables system.next (system.fdTables task.fdTable) := by
  cases share <;> simp [dupFdTable]

theorem dupSignalActions_spec (system : ProcSystem φ) (task : ProcTask) (share : Bool) :
    (system.dupSignalActions task share).snd.tasks = system.tasks ∧
    (system.dupSignalActions task share).snd.next = system.next ∧
    (system.dupSignalActions task share).fst = (if share then task.signalActions else system.next) ∧
    (system.dupSignalActions task share).snd.fdTables = system.fdTables := by
  cases share <;> simp [dupSignalActions]

-- What a clone does to the tasks: it makes one, or nothing.
theorem sysClone_cases (system : ProcSystem φ) (task : ProcTask) (flags : BitVec 64) (child : Nat)
    (written : Except SysErrNo Unit) :
    ((system.sysClone task flags child written).fst = .ok child ∧ ∃ shareVm isThread,
      system.Cloned task flags child shareVm isThread (system.sysClone task flags child written).snd) ∨
      ((∃ error, (system.sysClone task flags child written).fst = .error error) ∧
        (system.sysClone task flags child written).snd.tasks = system.tasks ∧
        system.next ≤ (system.sysClone task flags child written).snd.next ∧
        ∀ id < system.next, (system.sysClone task flags child written).snd.fdTables id = system.fdTables id) := by
  simp only [sysClone]
  split
  case h_1 error _ => exact .inr ⟨⟨error, rfl⟩, rfl, Nat.le_refl _, fun _ _ => rfl⟩
  case h_2 shareVm isThread hk =>
    have ⟨ht, hf, hn, hs⟩ := system.forkSpace_spec task shareVm
    split
    case h_1 error forked he =>
      rw [he] at ht hf hn
      exact .inr ⟨⟨error, rfl⟩, ht, hn.ge, fun id _ => congrFun hf id⟩
    case h_2 space forked he =>
      rw [he] at ht hf hn hs
      dsimp only at ht hf hn hs
      have ⟨ht', hn', hd', hf'⟩ := forked.dupFdTable_spec task (flags &&& Clone.files ≠ 0)
      generalize forked.dupFdTable task (flags &&& Clone.files ≠ 0) = dup at ht' hn' hd' hf' ⊢
      have ⟨ht'', hn'', ha'', hf''⟩ :=
        dup.snd.dupSignalActions_spec task (flags &&& Clone.sighand ≠ 0)
      generalize dup.snd.dupSignalActions task (flags &&& Clone.sighand ≠ 0) = dup' at ht'' hn'' ha'' hf'' ⊢
      have hnext : dup'.snd.next = system.next := hn''.trans (hn'.trans hn)
      have htasks : dup'.snd.tasks = system.tasks := ht''.trans (ht'.trans ht)
      have hfd : dup'.snd.fdTables = if flags &&& Clone.files ≠ 0 then system.fdTables
          else update system.fdTables system.next (system.fdTables task.fdTable) := by
        simpa [hf, hn] using hf''.trans hf'
      split
      case h_1 error =>
        refine .inr ⟨⟨error, rfl⟩, htasks, by dsimp only; omega, fun id hi => ?_⟩
        dsimp only
        rw [hfd]
        split
        case isTrue => rfl
        case isFalse => exact Function.update_of_ne hi.ne _ _
      case h_2 =>
        refine .inl ⟨rfl, shareVm, isThread, hk, ?_, congrArg (· + 1) hnext, hfd⟩
        dsimp only
        rw [htasks, ha'', hd', hs space rfl, hn'.trans hn, hn]
        simp

-- The handles of tasks are in use, and the counts of their tables are right.
structure Inv (system : ProcSystem φ) : Prop where
  used : ∀ pid task, system.tasks pid = some task →
    task.space < system.next ∧ task.fdTable < system.next ∧ task.signalActions < system.next
  counted : ∀ pid task, system.tasks pid = some task → (system.fdTables task.fdTable).Counted

-- A step that makes no task and leaves the tables alone, or keeps their counts right.
theorem Inv.keep (h : system.Inv) (ht : ∀ pid task, system'.tasks pid = some task → system.tasks pid = some task)
    (hn : system.next ≤ system'.next)
    (hf : ∀ id < system.next, (system.fdTables id).Counted → (system'.fdTables id).Counted) : system'.Inv where
  used pid task hp := by
    have ⟨hs, hd, ha⟩ := h.used pid task (ht pid task hp)
    exact ⟨hs.trans_le hn, hd.trans_le hn, ha.trans_le hn⟩
  counted pid task hp := hf _ (h.used pid task (ht pid task hp)).right.left (h.counted pid task (ht pid task hp))

-- A step that makes a task, with its table.
theorem Inv.make (h : system.Inv) (ht : system'.tasks = update system.tasks child (some task))
    (hn : system.next ≤ system'.next) (hf : ∀ id < system.next, system'.fdTables id = system.fdTables id)
    (hu : task.space < system'.next ∧ task.fdTable < system'.next ∧ task.signalActions < system'.next)
    (hc : (system'.fdTables task.fdTable).Counted) : system'.Inv where
  used pid task' hp := by
    rw [ht] at hp
    by_cases he : pid = child
    case pos =>
      subst he
      rw [Function.update_self, Option.some.injEq] at hp
      exact hp ▸ hu
    case neg =>
      rw [Function.update_of_ne he] at hp
      have ⟨hs, hd, ha⟩ := h.used pid task' hp
      exact ⟨hs.trans_le hn, hd.trans_le hn, ha.trans_le hn⟩
  counted pid task' hp := by
    rw [ht] at hp
    by_cases he : pid = child
    case pos =>
      subst he
      rw [Function.update_self, Option.some.injEq] at hp
      exact hp ▸ hc
    case neg =>
      rw [Function.update_of_ne he] at hp
      rw [hf _ (h.used pid task' hp).right.left]
      exact h.counted pid task' hp

theorem Inv.spawn (h : system.Inv) {space : AddressSpace} {stdin stdout stderr : φ} :
    (system.spawn pid space stdin stdout stderr).Inv :=
  h.make rfl (Nat.le_succ _) (fun _ hi => Function.update_of_ne hi.ne _ _)
    ⟨Nat.lt_succ_self _, Nat.lt_succ_self _, Nat.lt_succ_self _⟩
    (by simpa [ProcSystem.spawn] using FileDescriptorTable.new_counted stdin stdout stderr)

theorem Inv.cloned (h : system.Inv) (ht : system.tasks pid = some task) {shareVm isThread : Bool}
    (hc : system.Cloned task flags child shareVm isThread system') : system'.Inv := by
  have ⟨hs, hd, ha⟩ := h.used pid task ht
  refine h.make hc.tasks (hc.next ▸ Nat.le_succ _) (fun id hi => ?_) ?_ ?_
  case refine_1 =>
    rw [hc.fdTables]
    split
    case isTrue => rfl
    case isFalse => exact Function.update_of_ne hi.ne _ _
  case refine_2 =>
    rw [hc.next]
    refine ⟨?_, ?_, ?_⟩ <;> dsimp only <;> split <;> omega
  case refine_3 =>
    rw [hc.fdTables]
    dsimp only
    split
    case isTrue => exact h.counted pid task ht
    case isFalse =>
      rw [Function.update_self]
      exact h.counted pid task ht

theorem Inv.clone (h : system.Inv) (ht : system.tasks pid = some task) {written : Except SysErrNo Unit} :
    (system.sysClone task flags child written).snd.Inv := by
  cases system.sysClone_cases task flags child written
  case inl hc =>
    have ⟨_, _, _, hc⟩ := hc
    exact h.cloned ht hc
  case inr hc =>
    have ⟨_, hs, hn, hf⟩ := hc
    exact h.keep (fun _ _ hp => hs ▸ hp) hn fun id hi hc => hf id hi ▸ hc

-- A change to the table of a task that keeps the count right.
theorem counted_update {tables : Nat → FileDescriptorTable φ} {table : FileDescriptorTable φ} {id id' : Nat}
    (ht : table.Counted) (h : (tables id').Counted) : (update tables id table id').Counted := by
  by_cases he : id' = id
  case pos => subst he; rwa [Function.update_self]
  case neg => rwa [Function.update_of_ne he]

theorem tasks_sysExecve : (system.sysExecve arch pid task image frames).tasks other =
    if other ≠ pid ∧ (system.tasks other).any (·.tgid = task.tgid) then none else system.tasks other :=
  rfl

-- Only a clone makes tasks.
theorem tasks_of_apply (hn : ∀ flags child written, event ≠ .clone flags child written)
    (h : (system.apply arch pid task event).tasks other = some task') : system.tasks other = some task' := by
  cases event
  case clone flags child written => exact absurd rfl (hn flags child written)
  case execve =>
    rw [apply, tasks_sysExecve] at h
    split at h
    case isTrue => cases h
    case isFalse => exact h
  case exit =>
    simp only [apply] at h
    by_cases he : other = pid
    case pos => rw [he, Function.update_self] at h; cases h
    case neg => rwa [Function.update_of_ne he] at h
  case memory | descriptors | sigaction => exact h

theorem Inv.apply (h : system.Inv) (ht : system.tasks pid = some task) : (system.apply arch pid task event).Inv := by
  have hk {event : Event φ} (hn : ∀ flags child written, event ≠ .clone flags child written) :
      ∀ other task', (system.apply arch pid task event).tasks other = some task' →
        system.tasks other = some task' :=
    fun _ _ h => tasks_of_apply hn h
  cases event
  case clone => exact h.clone ht
  case execve =>
    exact h.keep (hk (by simp)) (Nat.le_refl _) fun _ _ hc =>
      counted_update (h.counted pid task ht).closeOnExec_counted hc
  case descriptors op =>
    exact h.keep (hk (by simp)) (Nat.le_refl _) fun _ _ hc => counted_update ((h.counted pid task ht).apply op) hc
  case memory | sigaction | exit => exact h.keep (hk (by simp)) (Nat.le_refl _) fun _ _ hc => hc

theorem Reachable.inv (h : Reachable arch allowed system) : system.Inv := by
  induction h
  case boot hn => exact ⟨fun pid _ hp => absurd hp (by simp [hn pid]), fun pid _ hp => absurd hp (by simp [hn pid])⟩
  case spawn hi => exact hi.spawn
  case step ht _ _ hi => exact hi.apply ht

-- What an `execve` makes of the objects of its caller.
theorem view_sysExecve : (system.sysExecve arch pid task image frames).view task' = {
    space := if task'.space = task.space then execSpace arch image else system.spaces task'.space
    descriptors := if task'.fdTable = task.fdTable then (system.fdTables task.fdTable).closeOnExec.snd.view
      else (system.fdTables task'.fdTable).view
    handlers := if task'.signalActions = task.signalActions then (system.actions task.signalActions).resetHandlersForExec
      else system.actions task'.signalActions } := by
  simp only [view, sysExecve, terminateThreadGroupPeers, ProcView.mk.injEq, Function.update_apply]
  refine ⟨trivial, ?_, trivial⟩
  split <;> rfl

theorem view_sysExecve_eq (h : (system.fdTables task.fdTable).Counted) :
    (system.sysExecve arch pid task image frames).view task' = system.view task' ↔
      system.Untouched arch task image task' := by
  rw [view_sysExecve]
  simp only [view, ProcView.mk.injEq]
  constructor
  case mp =>
    intro ⟨hs, hd, ha⟩
    refine ⟨fun he => ?_, fun he => ?_, fun he => ?_⟩
    case refine_1 => rw [if_pos he, he] at hs; exact hs.symm
    case refine_2 => rw [if_pos he, he] at hd; exact h.view_closeOnExec.mp hd
    case refine_3 => rw [if_pos he, he] at ha; exact SignalActions.resetHandlersForExec_eq_self.mp ha
  case mpr =>
    intro hu
    refine ⟨ite_eq_right_iff.mpr fun he => ?_, ite_eq_right_iff.mpr fun he => ?_, ite_eq_right_iff.mpr fun he => ?_⟩
    case refine_1 => rw [he]; exact (hu.space he).symm
    case refine_2 => rw [he]; exact h.view_closeOnExec.mpr (hu.descriptors he)
    case refine_3 => rw [he]; exact SignalActions.resetHandlersForExec_eq_self.mpr (hu.handlers he)

def booted : ProcSystem Unit where
  tasks _ := none
  spaces _ := ⟨.newBare, 0, 0, 0, 0⟩
  fdTables _ := .new () () ()
  actions _ := .new
  frames := ⟨fun _ => .zero, []⟩
  next := 0

def oneProcess : ProcSystem Unit :=
  booted.spawn 1 ⟨.newBare, 0, 0, 0, 0⟩ () () ()

-- A process whose child has the same memory.
def sharedMemory : ProcSystem Unit :=
  oneProcess.apply .riscv64 1 ⟨1, 0, 0, 0⟩ (.clone Clone.vm 2 (.ok ()))

theorem oneProcess_reachable {allowed : Event Unit → Prop} : Reachable .riscv64 allowed oneProcess :=
  .spawn (.boot fun _ => rfl) fun _ _ h => by cases h

theorem oneProcess_free : oneProcess.Free 2 := by
  intro other task h
  by_cases he : other = 1
  case pos =>
    subst he
    cases h
    decide
  case neg => simp [oneProcess, booted, spawn, he] at h

theorem sharedMemory_reachable : Reachable .riscv64 (fun _ => True) sharedMemory :=
  oneProcess_reachable.step rfl oneProcess_free trivial

-- The thread groups share no objects.
def Separate (system : ProcSystem φ) : Prop :=
  ∀ pid task other task', system.tasks pid = some task → system.tasks other = some task' → task.tgid ≠ task'.tgid →
    task.space ≠ task'.space ∧ task.fdTable ≠ task'.fdTable ∧ task.signalActions ≠ task'.signalActions

theorem Separate.keep (h : system.Separate)
    (ht : ∀ pid task, system'.tasks pid = some task → system.tasks pid = some task) : system'.Separate :=
  fun pid task other task' hp ho => h pid task other task' (ht pid task hp) (ht other task' ho)

-- A task whose objects are those of no other group.
theorem Separate.make (h : system.Separate) (ht : system'.tasks = update system.tasks child (some task))
    (hs : ∀ other task', system.tasks other = some task' → task.tgid ≠ task'.tgid → task.space ≠ task'.space ∧
      task.fdTable ≠ task'.fdTable ∧ task.signalActions ≠ task'.signalActions) : system'.Separate := by
  intro pid task₁ other task₂ hp ho hn
  rw [ht, Function.update_apply] at hp ho
  split at hp <;> split at ho
  case isTrue.isTrue => exact absurd (congrArg _ (Option.some.inj (hp.symm.trans ho))) hn
  case isTrue.isFalse =>
    cases hp
    exact hs other task₂ ho hn
  case isFalse.isTrue =>
    cases ho
    have ⟨hs, hd, ha⟩ := hs pid task₁ hp hn.symm
    exact ⟨hs.symm, hd.symm, ha.symm⟩
  case isFalse.isFalse => exact h pid task₁ other task₂ hp ho hn

theorem Separate.cloned (h : system.Separate) (hi : system.Inv) (ht : system.tasks pid = some task)
    {shareVm isThread : Bool} (hc : system.Cloned task flags child shareVm isThread system')
    (hs : ∀ shareVm, ShmSystem.cloneKind flags = .ok (shareVm, false) →
      shareVm = false ∧ flags &&& Clone.files = 0 ∧ flags &&& Clone.sighand = 0) : system'.Separate := by
  refine h.make hc.tasks fun other task' ho hn => ?_
  have ⟨hus, hud, hua⟩ := hi.used other task' ho
  cases isThread
  case false =>
    have ⟨hv, hf, ha⟩ := hs shareVm hc.kind
    simp only [hv, hf, ha, ne_eq, not_true, if_false, Bool.false_eq_true]
    exact ⟨hus.ne', hud.ne', hua.ne'⟩
  case true =>
    have ⟨hs', hd', ha'⟩ := h pid task other task' ht ho hn
    refine ⟨?_, ?_, ?_⟩ <;> dsimp only <;> split
    all_goals first | assumption | omega

theorem Reachable.separate (h : Reachable arch Event.SharesNothing system) : system.Separate := by
  induction h
  case boot hn => exact fun pid _ _ _ hp => absurd hp (by simp [hn pid])
  case spawn system _ _ _ _ _ hr _ hi =>
    refine hi.make rfl fun other task' ho _ => ?_
    have ⟨hs, hd, ha⟩ := hr.inv.used other task' ho
    exact ⟨hs.ne', hd.ne', ha.ne'⟩
  case step system pid task event hr ht hf hs hi =>
    cases event
    case clone flags child written =>
      cases system.sysClone_cases task flags child written
      case inl hc =>
        have ⟨_, _, _, hc⟩ := hc
        exact hi.cloned hr.inv ht hc hs
      case inr hc =>
        have ⟨_, ht, _⟩ := hc
        exact hi.keep fun _ _ hp => ht ▸ hp
    all_goals exact hi.keep fun _ _ hp => tasks_of_apply (by simp) hp

-- Where processes are made without sharing, which includes `fork` and `vfork`, every `execve` is confined.
theorem Reachable.execve_confined (h : Reachable arch Event.SharesNothing system) (ht : system.tasks pid = some task) :
    system.Confined arch pid task image frames := by
  intro other task' hp hn
  have ⟨hs, hd, ha⟩ := h.separate other task' pid task hp ht hn
  refine ⟨?_, (view_sysExecve_eq (h.inv.counted pid task ht)).mpr ?_⟩
  case refine_1 => rw [tasks_sysExecve, hp]; simp [hn]
  case refine_2 => exact ⟨fun he => absurd he hs, fun he => absurd he hd, fun he => absurd he ha⟩

-- A clone leaves the objects that are in use as they are, but for the memory of the caller.
theorem sysClone_objects {written : Except SysErrNo Unit} {id : Nat} (hi : id < system.next) :
    (id ≠ task.space → (system.sysClone task flags child written).snd.spaces id = system.spaces id) ∧
    (system.sysClone task flags child written).snd.fdTables id = system.fdTables id ∧
    (system.sysClone task flags child written).snd.actions id = system.actions id := by
  have hf (shareVm : Bool) : (id ≠ task.space → (system.forkSpace task shareVm).snd.spaces id = system.spaces id) ∧
      (system.forkSpace task shareVm).snd.actions = system.actions := by
    simp only [forkSpace]
    split
    case isTrue => exact ⟨fun _ => rfl, rfl⟩
    case isFalse => split <;> exact ⟨fun hs => by simp [hs, hi.ne], rfl⟩
  simp only [sysClone]
  split
  case h_1 => exact ⟨fun _ => rfl, rfl, rfl⟩
  case h_2 shareVm isThread _ =>
    have ⟨_, hfd, hn, _⟩ := system.forkSpace_spec task shareVm
    have ⟨hs, ha⟩ := hf shareVm
    split
    case h_1 he =>
      rw [he] at hfd hs ha
      exact ⟨hs, congrFun hfd id, congrFun ha id⟩
    case h_2 space forked he =>
      rw [he] at hfd hn hs ha
      have hne : id ≠ forked.next := hn.symm ▸ hi.ne
      have hfd := congrFun hfd id
      have ha := congrFun ha id
      generalize decide (flags &&& Clone.files ≠ 0) = shareFiles
      generalize decide (flags &&& Clone.sighand ≠ 0) = shareSighand
      cases shareFiles <;> cases shareSighand <;> cases written <;>
        simpa [dupFdTable, dupSignalActions, hne] using ⟨hs, hfd, ha⟩

-- A process and the child that it has forked.
def forkedProcess : ProcSystem Unit :=
  oneProcess.apply .riscv64 1 ⟨1, 0, 0, 0⟩ (.clone 17 2 (.ok ()))

theorem forkedProcess_reachable : Reachable .riscv64 Event.SharesNothing forkedProcess := by
  refine oneProcess_reachable.step rfl oneProcess_free ?_
  rintro shareVm h
  cases h
  decide

end WllOs.ProcSystem
