import WllOs.Library.Chains
import WllOs.Fs.Theorems.LockWait

namespace WllOs

open Relation Successor

section

variable {waiters : List FileLockWaiter} {owner other waiter waitingFor : FileLockOwner}

theorem waitsFor_setLockWaiter :
    waitsFor (setLockWaiter waiter waitingFor waiters) = Function.update (waitsFor waiters) waiter (some waitingFor) := by
  funext owner
  induction waiters
  case nil => by_cases h : owner = waiter <;> simp [setLockWaiter, waitsFor, Function.update, h, eq_comm]
  case cons entry waiters hi =>
    simp only [setLockWaiter]
    by_cases he : entry.waiter = waiter
    case pos =>
      by_cases h : owner = waiter <;> simp [waitsFor, Function.update, he, h, eq_comm]
    case neg =>
      by_cases ho : entry.waiter = owner
      case pos => simp [waitsFor, Function.update, he, ← ho]
      case neg => simpa [waitsFor, Function.update, he, ho] using hi

theorem waitsFor_removeLockWaiter :
    waitsFor (removeLockWaiter owner waiters) = Function.update (waitsFor waiters) owner none := by
  funext waiter
  simp only [waitsFor, removeLockWaiter, List.find?_filter]
  by_cases h : waiter = owner
  case pos => simp [h]
  case neg =>
    rw [Function.update_of_ne h]
    congr 2
    funext entry
    by_cases he : entry.waiter = waiter <;> simp [he, h]

theorem mem_of_waitsFor (h : (waitsFor waiters waiter).isSome) : waiter ∈ waiters.map (·.waiter) := by
  simp only [waitsFor, Option.isSome_map, List.find?_isSome, decide_eq_true_eq] at h
  exact List.mem_map.mpr h

theorem fileLockWouldDeadlock_go_eq {depth : Nat} :
    fileLockWouldDeadlock.go waiters waiter depth owner = reaches (waitsFor waiters) waiter depth owner := by
  induction depth generalizing owner
  case zero => rfl
  case succ depth hi =>
    simp only [fileLockWouldDeadlock.go, reaches]
    cases waitsFor waiters owner
    case none => rfl
    case some => simp only [hi]

-- The search of the table finds the owner that waits exactly if the entries lead to it.
theorem fileLockWouldDeadlock_iff (h : Acyclic (waitsFor waiters)) :
    fileLockWouldDeadlock waiters waiter waitingFor ↔ Path (waitsFor waiters) waitingFor waiter := by
  simp only [fileLockWouldDeadlock, fileLockWouldDeadlock_go_eq, Bool.or_eq_true, decide_eq_true_eq]
  constructor
  case mp =>
    intro hd
    cases hd
    case inl he => exact he ▸ .refl
    case inr hd => exact path_of_reaches hd
  case mpr =>
    intro hp
    have hr := reaches_of_path h (fun _ => mem_of_waitsFor) hp
    exact .inr (by simpa using hr)

end

namespace LockPc

variable {pc : LockPc} {file : FileLockKey} {want : FileRecordLock} {owner : FileLockOwner}

theorem judge_of_wakeFor (h : pc.wakeFor file = .judge want owner) : pc = .judge want owner := by
  cases pc <;> first | exact h | cases h

theorem register_of_wakeFor (h : pc.wakeFor file = .register want owner) : pc = .register want owner := by
  cases pc <;> first | exact h | cases h

end LockPc

namespace LockSystem

variable {τ : Type} [DecidableEq τ] {s s' : LockSystem τ} {t t' : τ} {act : LockAct} {wait : LockWait}
  {want : FileRecordLock} {owner other : FileLockOwner}

-- What a step does to the table of waiters, and how its thread comes to be judged, registered or asleep.
inductive WaiterStep (s s' : LockSystem τ) (t : τ) (act : LockAct) : Prop
  | same (hw : s'.waiters = s.waiters) (hj : ∀ want owner, s'.pc t = .judge want owner → want.owner.IsPosix)
      (hr : ∀ want owner, s'.pc t = .register want owner → s.pc t = .judge want owner ∧ act = .run ∧
        fileLockWouldDeadlock s.waiters want.owner owner = false)
      (ha : ∀ wait, s'.pc t = .asleep wait false → s.pc t = .recheck wait false ∧ act = .run ∧ s'.records = s.records)
  | register {want : FileRecordLock} {owner : FileLockOwner} (hp : s.pc t = .register want owner) (hact : act = .run)
      (hw : s'.waiters = setLockWaiter want.owner owner s.waiters) (hp' : s'.pc t = .enroll (.record want))
  | forget {owner : FileLockOwner} {wakes : List FileLockKey} {rest : List (Nat × FileLockKey)}
      (hp : s.pc t = .forget owner wakes rest) (hact : act = .run) (hw : s'.waiters = removeLockWaiter owner s.waiters)
      (hp' : s'.pc t = .wake wakes rest)

theorem WaiterStep.goto {records : List FileRecordLock} {wholeFile : List WholeFileLock} {pc : LockPc}
    (h : pc.isPlain) : WaiterStep s (LockSystem.goto ⟨records, s.waiters, wholeFile, s.pc⟩ t pc) t act := by
  refine .same rfl (fun _ _ he => ?_) (fun _ _ he => ?_) fun _ he => ?_ <;> rw [goto_self] at he <;> subst he <;> cases h

theorem advance_waiters (h : s.advance t (s.pc t) = some s') : WaiterStep s s' t .run := by
  cases hp : s.pc t <;> simp only [hp, advance] at h
  case idle => cases h
  case attempt want blocking =>
    split at h
    case h_1 => cases h; exact .goto rfl
    case h_2 =>
      split_ifs at h
      case pos => cases h; exact .goto rfl
      case neg =>
        split at h <;> cases h
        case h_1 ho =>
          refine .same rfl (fun want' owner he => ?_) (fun _ _ he => ?_) fun _ he => ?_ <;> rw [goto_self] at he <;> cases he
          rw [ho]
          trivial
        case h_2 => exact .goto rfl
  case judge want conflictOwner =>
    split_ifs at h <;> cases h
    case pos => exact .goto rfl
    case neg hn =>
      refine .same rfl (fun _ _ he => ?_) (fun _ _ he => ?_) fun _ he => ?_ <;> rw [goto_self] at he <;> cases he
      exact ⟨hp, rfl, by simpa using hn⟩
  case register => cases h; exact .register hp rfl rfl goto_self
  case flock want nonblock releasedPrevious =>
    generalize (if releasedPrevious then _ else _) = locks at h
    split at h <;> cases h
    case isTrue => exact .goto rfl
    case isFalse => cases nonblock <;> exact .goto rfl
  case recheck wait woken =>
    cases h
    split
    case isTrue =>
      refine .same rfl (fun _ _ he => ?_) (fun _ _ he => ?_) fun _ he => ?_ <;> rw [goto_self] at he <;> cases he
      exact ⟨hp, rfl, rfl⟩
    case isFalse => exact .goto (LockPc.retry_plain _)
  case asleep wait _ =>
    split_ifs at h
    cases h
    exact .goto (LockPc.retry_plain _)
  case release rest => cases rest <;> cases h <;> exact .goto rfl
  case forget => cases h; exact .forget hp rfl rfl goto_self
  case wake wakes rest =>
    cases wakes
    case nil => cases h; exact .goto rfl
    case cons =>
      cases h
      refine .same rfl (fun _ _ he => ?_) (fun _ _ he => ?_) fun _ he => ?_ <;> rw [goto_self] at he <;> cases he
  all_goals cases h; exact .goto rfl

theorem step_waiters (h : s.step t act = some s') : WaiterStep s s' t act := by
  cases act
  case start call =>
    simp only [step] at h
    split_ifs at h
    cases h
    exact .goto call.entry_plain
  case run => exact advance_waiters h
  case interrupt err =>
    simp only [step] at h
    split at h
    case h_1 wait hp | h_2 wait _ hp | h_3 wait _ hp =>
      cases h
      cases wait <;> refine .goto ?_ <;> (try split) <;> rfl
    case h_4 => cases h

omit [DecidableEq τ] in
-- A process comes to block a sleeping request when it is granted a lock.
theorem blocks_of_step (hs : s.Sound) (ht : TableStep s s' t) (hb : s'.Blocks want owner) :
    s.Blocks want owner ∨ ∃ granted blocking, s.pc t = .attempt granted blocking ∧
      s.conflicts (.record granted) = false ∧ owner = granted.owner ∧ want.file = granted.file ∧
      want.range.overlap granted.range ∧ granted.kind.conflict want.kind := by
  have ⟨ho, byte, kind, hm, hh, hk⟩ := hb
  have hf := hs.fits t
  cases ht
  case same hr _ | flock hr _ _ | releaseWhole hr _ _ => exact .inl ⟨ho, byte, kind, hm, hr ▸ hh, hk⟩
  case unlock hp hr _ _ =>
    rw [hp] at hf
    exact .inl ⟨ho, byte, kind, hm, ((applyFileUnlock_holds hf).mp (hr ▸ hh)).left, hk⟩
  case grant granted blocking hp hr _ =>
    rw [hp] at hf
    have ⟨hs', hh'⟩ := applyFileLock_ok hs.records hf hr
    have hh' := hh' want.file owner byte
    rw [hs'.wellFormed.holding_eq_some.mpr hh] at hh'
    split at hh'
    case isFalse => exact .inl ⟨ho, byte, kind, hm, hs.records.wellFormed.holding_eq_some.mp hh'.symm, hk⟩
    case isTrue hg =>
      cases hh'
      exact .inr ⟨granted, blocking, hp, applyFileLock_no_conflict hr, hg.right.left, hg.left,
        FileLockRange.overlap_of_mem hm hg.right.right, hk⟩
  case releaseRecords gone hr _ _ =>
    have ⟨lock, hl, h⟩ := hh
    rw [hr] at hl
    exact .inl ⟨ho, byte, kind, hm, ⟨lock, (List.mem_filter.mp hl).left, h⟩, hk⟩

-- What is true of the system between two steps of a run whose steps satisfy the conditions.
structure Tracked (s : LockSystem τ) : Prop where
  sound : s.Sound
  acyclic : Acyclic (waitsFor s.waiters)
  register : ∀ t want owner, s.pc t = .register want owner → ¬ Path (waitsFor s.waiters) owner want.owner
  unique : ∀ t t' want want' owner owner', s.pc t = .register want owner → s.pc t' = .register want' owner' → t = t'
  posix : ∀ t want owner, s.pc t = .judge want owner → want.owner.IsPosix
  waits : ∀ owner other, s.WaitsOn owner other → waitsFor s.waiters owner = some other

omit [DecidableEq τ] in
theorem Tracked.initial : (initial : LockSystem τ).Tracked where
  sound := .initial
  acyclic := .empty
  register _ _ _ h := nomatch h
  unique _ _ _ _ _ _ h := nomatch h
  posix _ _ _ h := nomatch h
  waits _ _ h := have ⟨_, _, _, _, hp, _⟩ := h; nomatch hp

namespace Tracked

omit [DecidableEq τ] in
theorem acyclic_step (hs : s.Tracked) (hw : WaiterStep s s' t act) : Acyclic (waitsFor s'.waiters) := by
  cases hw
  case same hw _ _ _ => exact hw ▸ hs.acyclic
  case register hp _ hw _ =>
    rw [hw, waitsFor_setLockWaiter]
    exact hs.acyclic.update (hs.register _ _ _ hp)
  case forget hw _ =>
    rw [hw, waitsFor_removeLockWaiter]
    exact hs.acyclic.erase

omit [DecidableEq τ] in
-- The entry of a process with a sleeping task stays in the table.
theorem entry_step (hk : s.TracksWaits t act) (hw : WaiterStep s s' t act) (ha : s.pc t' = .asleep (.record want) false)
    (he : waitsFor s.waiters want.owner = some other) : waitsFor s'.waiters want.owner = some other := by
  cases hw
  case same hw _ _ _ => rwa [hw]
  case register want' owner hp hact hw _ =>
    have hn := hk.right hact
    rw [hp] at hn
    rw [hw, waitsFor_setLockWaiter, Function.update_of_ne (hn t' want ha), he]
  case forget owner _ _ hp hact hw _ =>
    have hn := hk.right hact
    rw [hp] at hn
    rw [hw, waitsFor_removeLockWaiter, Function.update_of_ne (hn t' want ha), he]

theorem waits_step (hs : s.Tracked) (hk : s.TracksWaits t act) (h : s.step t act = some s') :
    ∀ owner other, s'.WaitsOn owner other → waitsFor s'.waiters owner = some other := by
  intro owner other ⟨hp, hp', t', want, ha, ho, hb⟩
  subst ho
  have hw := step_waiters h
  by_cases hn : t' = t
  case pos =>
    -- The thread has just fallen asleep, and its entry names the only process that blocks it.
    subst hn
    cases hw
    case same hw _ _ hsleep =>
      have ⟨hpc, hact, hr⟩ := hsleep _ ha
      have hone := hk.right hact
      rw [hpc] at hone
      rw [hw]
      refine hone other hp hp' ⟨hb.left, ?_⟩
      rw [← hr]
      exact hb.right
    case register hp' => rw [hp'] at ha; cases ha
    case forget hp' => rw [hp'] at ha; cases ha
  case neg =>
    have ha' := (step_pc h).asleep hn ha
    cases blocks_of_step hs.sound (step_tables h) hb
    case inl hb => exact entry_step hk hw ha' (hs.waits _ _ ⟨hp, hp', t', want, ha', rfl, hb⟩)
    case inr hg =>
      have ⟨granted, blocking, hpc, hc, ho, hf, hov, hkind⟩ := hg
      cases act
      case run =>
        have hone := hk.right rfl
        rw [hpc] at hone
        exact entry_step hk hw ha' (ho ▸ hone hc t' want ha' hp (ho ▸ hp') (ho ▸ hb.left.symm) hf hov hkind)
      case start call =>
        simp only [LockSystem.step, hpc, reduceCtorEq, if_false] at h
      case interrupt err => simp only [LockSystem.step, hpc, reduceCtorEq] at h

-- A thread that is about to be registered has just been judged, while no other one was about to.
theorem register_step (hs : s.Tracked) (hk : s.TracksWaits t act) (h : s.step t act = some s')
    (hr : s'.pc t' = .register want owner) :
    (t' ≠ t → s.pc t' = .register want owner) ∧ (t' = t → (∀ t want owner, s.pc t ≠ .register want owner) ∧
      ¬ Path (waitsFor s.waiters) owner want.owner) := by
  constructor
  case left =>
    intro hn
    cases step_pc h
    case move hm _ _ => exact hm t' hn ▸ hr
    case wake ho => exact LockPc.register_of_wakeFor (ho t' hn ▸ hr)
  case right =>
    intro he
    subst he
    cases step_waiters h
    case same hreg _ =>
      have ⟨hp, hact, hd⟩ := hreg _ _ hr
      have hn := hk.right hact
      rw [hp] at hn
      refine ⟨hn.left, fun hpath => ?_⟩
      rw [← fileLockWouldDeadlock_iff hs.acyclic, hd] at hpath
      cases hpath
    case register hp' => rw [hp'] at hr; cases hr
    case forget hp' => rw [hp'] at hr; cases hr

theorem step (hs : s.Tracked) (hk : s.TracksWaits t act) (h : s.step t act = some s') : s'.Tracked where
  sound := hs.sound.step hk.left h
  acyclic := hs.acyclic_step (step_waiters h)
  register t' want owner hr := by
    have hreg := hs.register_step hk h hr
    have hw := step_waiters h
    by_cases hn : t' = t
    case pos =>
      have hpath := (hreg.right hn).right
      cases hw
      case same hw _ _ _ => rwa [hw]
      case register hp' => rw [hn, hp'] at hr; cases hr
      case forget hp' => rw [hn, hp'] at hr; cases hr
    case neg =>
      have hp := hreg.left hn
      cases hw
      case same hw _ _ _ => exact hw ▸ hs.register _ _ _ hp
      case register hp' _ _ _ => exact absurd (hs.unique _ _ _ _ _ _ hp hp') hn
      case forget hw _ =>
        rw [hw, waitsFor_removeLockWaiter]
        exact fun hpath => hs.register _ _ _ hp hpath.of_erase
  unique t₁ t₂ _ _ _ _ h₁ h₂ := by
    have h₁ := hs.register_step hk h h₁
    have h₂ := hs.register_step hk h h₂
    by_cases hn₁ : t₁ = t
    case pos =>
      by_cases hn₂ : t₂ = t
      case pos => exact hn₁.trans hn₂.symm
      case neg => exact absurd (h₂.left hn₂) ((h₁.right hn₁).left _ _ _)
    case neg =>
      by_cases hn₂ : t₂ = t
      case pos => exact absurd (h₁.left hn₁) ((h₂.right hn₂).left _ _ _)
      case neg => exact hs.unique _ _ _ _ _ _ (h₁.left hn₁) (h₂.left hn₂)
  posix t' want owner hj := by
    by_cases hn : t' = t
    case pos =>
      subst hn
      cases step_waiters h
      case same hposix _ _ => exact hposix _ _ hj
      case register hp' => rw [hp'] at hj; cases hj
      case forget hp' => rw [hp'] at hj; cases hj
    case neg =>
      cases step_pc h
      case move hm _ _ => exact hs.posix _ _ _ (hm t' hn ▸ hj)
      case wake ho => exact hs.posix _ _ _ (LockPc.judge_of_wakeFor (ho t' hn ▸ hj))
  waits := hs.waits_step hk h

end Tracked

theorem Reachable.tracked (h : Reachable TracksWaits s) : s.Tracked := by
  induction h
  case initial => exact .initial
  case step _ hk h hi => exact hi.step hk h

-- Where the entries of the table are true, a path along them is one of processes that wait for each other.
omit [DecidableEq τ] in
theorem path_waits (hp : other.IsPosix) (ht : ∀ owner other, other.IsPosix → waitsFor s.waiters owner = some other →
    s.WaitsOn owner other) (h : Path (waitsFor s.waiters) owner other) :
    owner.IsPosix ∧ ReflTransGen s.WaitsOn owner other := by
  induction h using ReflTransGen.head_induction_on
  case refl => exact ⟨hp, .refl⟩
  case head _ _ he _ hi =>
    have hw := ht _ _ hi.left he
    exact ⟨hw.left, .head hw hi.right⟩

-- No deadlock arises, and no request fails that would not close a cycle, in a run where the table tells who waits.
theorem deadlockFree (h : Reachable TracksWaits s) : s.DeadlockFree where
  noCycle owner hc := h.tracked.acyclic owner (TransGen.mono h.tracked.waits _ _ hc)
  justified t want conflictOwner hp hk hd := by
    have hs := h.tracked
    have hcond := hk.right rfl
    rw [hp] at hcond
    have hpath := (fileLockWouldDeadlock_iff hs.acyclic).mp hd
    have ⟨_, hw⟩ := path_waits (hs.posix _ _ _ hp) hcond.right.right hpath
    refine ⟨conflictOwner, hcond.right.left, ?_⟩
    cases ReflTransGen.cases_head hw
    case inl he => exact absurd he hcond.right.left.left
    case inr hw =>
      have ⟨_, hw, hw'⟩ := hw
      exact .head' hw hw'

-- A request of a process for one byte of a file, for writing, which sleeps if it is refused.
def setlkwAct (pid byte : Nat) : LockAct :=
  .start (.fcntl ⟨pid, some (.ext4Regular 5 0 0 true true pid), fun _ => none, .setlkw, some ⟨F_WRLCK, 0, byte, 1, 0⟩⟩)

def firstLock : FileRecordLock :=
  ⟨.ext4 5, .posix 1, 1, .write, ⟨0, some 1⟩⟩

def secondWant : FileRecordLock :=
  ⟨.ext4 5, .posix 2, 2, .write, ⟨0, some 1⟩⟩

omit [DecidableEq τ] in
theorem blocks_first (h : s.records = [firstLock]) : s.Blocks secondWant (.posix 1) :=
  ⟨nofun, 0, .write, by decide, ⟨firstLock, h ▸ List.mem_singleton_self _, rfl, rfl, by decide, rfl⟩, rfl⟩

omit [DecidableEq τ] in
theorem eq_of_blocks (h : s.records = [firstLock]) (hb : s.Blocks secondWant owner) : owner = .posix 1 := by
  have ⟨_, _, _, _, ⟨lock, hm, _, ho, _⟩, _⟩ := hb
  rw [h] at hm
  cases List.mem_singleton.mp hm
  exact ho.symm

unseal applyFileUnlock.go in
-- The first process locks a byte, and a task of the second waits for it.
theorem deadlockFree_waiting : ∃ s : LockSystem Bool, s.WaitsOn (.posix 2) (.posix 1) ∧ s.DeadlockFree := by
  have h : Reachable TracksWaits _ := .step .initial
    (by exact ⟨fun _ _ hb => by cases hb; decide, nofun⟩) (rfl : initial.step false (setlkwAct 1 0) = some _)
  have h := h.step (by exact ⟨trivial, fun _ _ t => by cases t <;> nofun⟩) (rfl : step _ false .run = some _)
  have h := h.step (by exact ⟨trivial, fun _ t => by cases t <;> nofun⟩) (rfl : step _ false .run = some _)
  have h := h.step (by exact ⟨trivial, fun _ => trivial⟩) (rfl : step _ false .run = some _)
  have h := h.step (by exact ⟨trivial, fun _ => trivial⟩) (rfl : step _ false .run = some _)
  have h := h.step (by exact ⟨fun _ _ hb => by cases hb; decide, nofun⟩)
    (rfl : step _ true (setlkwAct 2 0) = some _)
  have h := h.step (by exact ⟨trivial, fun _ => nofun⟩) (rfl : step _ true .run = some _)
  have h := h.step (by exact ⟨trivial, fun _ => ⟨fun t => by cases t <;> nofun, blocks_first rfl, nofun⟩⟩)
    (rfl : step _ true .run = some _)
  have h := h.step (by exact ⟨trivial, fun _ t => by cases t <;> nofun⟩) (rfl : step _ true .run = some _)
  have h := h.step (by exact ⟨trivial, fun _ => trivial⟩) (rfl : step _ true .run = some _)
  have h := h.step (by exact ⟨trivial, fun _ _ _ _ hb => congrArg some (eq_of_blocks rfl hb).symm⟩)
    (rfl : step _ true .run = some _)
  exact ⟨_, ⟨trivial, trivial, true, secondWant, rfl, rfl, blocks_first rfl⟩, deadlockFree h⟩

-- Both processes hold a byte, are refused the byte of the other, and are judged before either is registered.
def raceSteps : List (Bool × LockAct) :=
  let lock (t : Bool) (pid byte : Nat) : List (Bool × LockAct) :=
    [(t, setlkwAct pid byte), (t, .run), (t, .run), (t, .run), (t, .run)]
  lock false 1 0 ++ lock true 2 1 ++
    [(false, setlkwAct 1 1), (false, .run), (false, .run), (true, setlkwAct 2 0), (true, .run), (true, .run),
      (false, .run), (false, .run), (false, .run), (true, .run), (true, .run), (true, .run)]

unseal applyFileUnlock.go in
theorem raceSteps_not_deadlockFree :
    ¬ ∀ s : LockSystem Bool, Reachable (fun _ _ _ => True) s → s.DeadlockFree := by
  intro h
  have hr : Reachable (fun _ _ _ => True) _ :=
    reachable_run (fun _ _ _ => trivial) .initial (rfl : initial.run raceSteps = some _)
  refine (h _ hr).noCycle (.posix 1) (.head (b := .posix 2) ?_ (.single ?_))
  case refine_1 =>
    refine ⟨trivial, trivial, false, ⟨.ext4 5, .posix 1, 1, .write, ⟨1, some 2⟩⟩, rfl, rfl, nofun, 1, .write, ?_, ?_, rfl⟩
    · decide
    · exact ⟨⟨.ext4 5, .posix 2, 2, .write, ⟨1, some 2⟩⟩, .tail _ (.head _), rfl, rfl, by decide, rfl⟩
  case refine_2 =>
    refine ⟨trivial, trivial, true, ⟨.ext4 5, .posix 2, 2, .write, ⟨0, some 1⟩⟩, rfl, rfl, nofun, 0, .write, ?_, ?_, rfl⟩
    · decide
    · exact ⟨⟨.ext4 5, .posix 1, 1, .write, ⟨0, some 1⟩⟩, .head _, rfl, rfl, by decide, rfl⟩

end LockSystem

end WllOs
