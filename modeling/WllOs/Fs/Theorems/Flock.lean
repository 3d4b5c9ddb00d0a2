import WllOs.Fs.Flock
import WllOs.Fs.Theorems.LockWait

namespace WllOs

variable {τ : Type} [DecidableEq τ]

theorem LockDescriptor.ofdOwnerId_withOwner {fd : LockDescriptor} {id id' : Nat}
    (h : (fd.withOwner id).ofdOwnerId = some id') : id' = id := by
  cases fd <;> simp only [withOwner, ofdOwnerId, Option.some.injEq, reduceCtorEq] at h <;> exact h.symm

@[simp]
theorem LockPc.dropping_wakeFor {pc : LockPc} {file : FileLockKey} : (pc.wakeFor file).dropping = pc.dropping := by
  cases pc <;> rfl

@[simp]
theorem LockPc.dropping_retry {wait : LockWait} : (LockPc.retry wait).dropping = none := by
  cases wait <;> rfl

theorem LockCall.dropping_entry {call : LockCall} {id : Nat} (h : call.entry.dropping = some id) :
    call = .dropDescription id := by
  cases call
  case fcntl call =>
    simp only [entry] at h
    split at h
    case h_1 => cases h
    case h_2 => split_ifs at h <;> (try split at h) <;> cases h
  case flock call =>
    simp only [entry] at h
    split at h <;> cases h
  case dropDescription id' => cases h; rfl
  all_goals cases h

namespace LockSystem

variable {s s' : LockSystem τ} {t t' : τ} {act : LockAct} {id : Nat}

-- What a call leaves of the table before it asks for its lock.
def rest (s : LockSystem τ) (want : WholeFileLock) (released : Bool) : List WholeFileLock :=
  if released then s.wholeFile else s.wholeFile.filter (!·.isOf want.file want.owner)

-- What a step does to the table of `flock`.
inductive WholeStep (s s' : LockSystem τ) (t : τ) : Prop
  | same (hw : s'.wholeFile = s.wholeFile)
  | grant {want : WholeFileLock} {nonblock released : Bool} (hp : s.pc t = .flock want nonblock released)
      (hc : s.conflicts (.wholeFile want) = false) (hs : s'.pc t = .idle)
      (hw : s'.wholeFile = s.rest want released ++ [want])
  | refuse {want : WholeFileLock} {nonblock released : Bool} (hp : s.pc t = .flock want nonblock released)
      (hw : s'.wholeFile = s.rest want released)
  | unlock {file : FileLockKey} {owner : Nat} (hp : s.pc t = .flockUnlock file owner)
      (hw : s'.wholeFile = s.wholeFile.filter (!·.isOf file owner))
  | drop {id : Nat} {files : List FileLockKey} (hp : s.pc t = .dropWhole id files)
      (hw : s'.wholeFile = s.wholeFile.filter (·.owner ≠ id))

theorem advance_flock {want : WholeFileLock} {nonblock released : Bool} :
    s.advance t (.flock want nonblock released) = some (
      if s.conflicts (.wholeFile want) then
        { s with wholeFile := s.rest want released }.goto t (if nonblock then .idle else .enroll (.wholeFile want))
      else { s with wholeFile := s.rest want released ++ [want] }.goto t .idle) := by
  have hc : wholeFileLockConflicts (s.rest want released) want.file want.owner want.kind =
      s.conflicts (.wholeFile want) := by
    cases released
    case true => rfl
    case false => exact conflicts_filter
  unfold rest at *
  simp only [advance, hc]
  cases s.conflicts (.wholeFile want) <;> rfl

theorem advance_whole (h : s.advance t (s.pc t) = some s') : WholeStep s s' t := by
  cases hp : s.pc t <;> simp only [hp] at h
  case flock want nonblock released =>
    rw [advance_flock] at h
    have h := Option.some.inj h
    split at h <;> subst h
    case isTrue => exact .refuse hp rfl
    case isFalse hc => exact .grant hp (by simpa using hc) goto_self rfl
  all_goals simp only [advance] at h
  case idle => cases h
  case attempt =>
    split at h
    case h_1 => cases h; exact .same rfl
    case h_2 => split_ifs at h <;> (try split at h) <;> cases h <;> exact .same rfl
  case judge => split_ifs at h <;> cases h <;> exact .same rfl
  case flockUnlock => cases h; exact .unlock hp rfl
  case asleep => split_ifs at h; cases h; exact .same rfl
  case release rest => cases rest <;> cases h <;> exact .same rfl
  case dropWhole => cases h; exact .drop hp rfl
  case wake wakes rest => cases wakes <;> cases h <;> exact .same rfl
  all_goals cases h; exact .same rfl

-- Only the steps of a call change the table, not its begin and not a signal.
theorem step_wholeFile (h : s.step t act = some s') (hn : act ≠ .run) : s'.wholeFile = s.wholeFile := by
  cases act
  case run => exact absurd rfl hn
  case start =>
    simp only [step] at h
    split_ifs at h
    cases h
    rfl
  case interrupt =>
    simp only [step] at h
    split at h
    case h_1 wait _ | h_2 wait _ _ | h_3 wait _ _ => cases h; cases wait <;> rfl
    case h_4 => cases h

theorem advance_dropping (h : s.advance t (s.pc t) = some s') (hd : (s'.pc t).dropping = some id) :
    (s.pc t).dropping = some id := by
  cases hp : s.pc t <;> simp only [hp, advance] at h
  case idle => cases h
  case attempt =>
    split at h
    case h_1 => cases h; simp [LockPc.dropping] at hd
    case h_2 => split_ifs at h <;> (try split at h) <;> cases h <;> simp [LockPc.dropping] at hd
  case judge => split_ifs at h <;> cases h <;> simp [LockPc.dropping] at hd
  case flock want nonblock released =>
    generalize (if released then _ else _) = locks at h
    split at h <;> cases h
    case isTrue => simp [LockPc.dropping] at hd
    case isFalse => cases nonblock <;> simp [LockPc.dropping] at hd
  case recheck wait _ =>
    cases h
    rw [goto_self] at hd
    split at hd
    case isTrue => cases hd
    case isFalse => simp at hd
  case asleep => split_ifs at h; cases h; simp at hd
  case release rest => cases rest <;> cases h <;> simp [LockPc.dropping] at hd
  case dropRecords => cases h; simpa [LockPc.dropping] using hd
  case wake wakes rest => cases wakes <;> cases h <;> simp [LockPc.dropping] at hd
  all_goals cases h; simp [LockPc.dropping] at hd

-- A thread drops the locks of a description only in the call that its last descriptor makes.
theorem step_dropping (h : s.step t act = some s') (hd : (s'.pc t').dropping = some id) :
    (s.pc t').dropping = some id ∨ t' = t ∧ act = .start (.dropDescription id) := by
  by_cases hn : t' = t
  case neg =>
    cases step_pc h
    case move hm _ _ => exact .inl (hm t' hn ▸ hd)
    case wake ho => exact .inl (by simpa [ho t' hn] using hd)
  case pos =>
    subst hn
    cases act
    case run => exact .inl (advance_dropping h hd)
    case start call =>
      simp only [step] at h
      split_ifs at h
      cases h
      rw [goto_self] at hd
      exact .inr ⟨rfl, congrArg _ (LockCall.dropping_entry hd)⟩
    case interrupt err =>
      simp only [step] at h
      split at h
      case h_1 wait _ | h_2 wait _ _ | h_3 wait _ _ =>
        cases h
        cases wait <;> simp only [fail, goto_self] at hd <;> (try split at hd) <;> cases hd
      case h_4 => cases h

theorem dropping_start (h : s.step t (.start (.dropDescription id)) = some s') : (s'.pc t).dropping = some id := by
  simp only [step] at h
  split_ifs at h
  cases h
  simp [LockCall.entry, LockPc.dropping]

-- It stays there until the description has no lock left.
theorem step_keeps_dropping (h : s.step t act = some s') (hd : (s.pc t').dropping = some id) :
    (s'.pc t').dropping = some id ∨ ∀ lock ∈ s'.wholeFile, lock.owner ≠ id := by
  by_cases hn : t' = t
  case neg =>
    cases step_pc h
    case move hm _ _ => exact .inl ((hm t' hn).symm ▸ hd)
    case wake ho => exact .inl (by simpa [ho t' hn] using hd)
  case pos =>
    subst hn
    cases hp : s.pc t' <;> simp only [hp, LockPc.dropping, reduceCtorEq, Option.some.injEq] at hd <;> subst hd
    case dropRecords id =>
      cases act <;> simp only [step, advance, hp, reduceCtorEq, if_false] at h
      cases h
      exact .inl (by simp [LockPc.dropping])
    case dropWhole id files =>
      cases act <;> simp only [step, advance, hp, reduceCtorEq, if_false] at h
      cases h
      exact .inr fun lock hm => by simpa using (List.mem_filter.mp hm).right

end LockSystem

namespace FlockSystem

variable {s s' : FlockSystem τ} {t t' : τ} {act : FlockAct} {id : Nat} {file : FileLockKey} {owner : Nat}
  {want : WholeFileLock} {nonblock released : Bool} {p : FlockSystem τ → τ → FlockAct → Prop}

-- Two locks on one file are of two descriptions, and both for reading.
def Compatible (lock lock' : WholeFileLock) : Prop :=
  lock.file = lock'.file → lock.owner ≠ lock'.owner ∧ lock.kind = .read ∧ lock'.kind = .read

-- What holds between two steps.
structure Inv (s : FlockSystem τ) : Prop where
  compatible : s.locks.wholeFile.Pairwise Compatible
  alive : ∀ lock ∈ s.locks.wholeFile, s.Alive lock.owner
  fresh : ∀ id, s.isOpen id → id < s.nextOpenFileDescriptionId
  dropping : ∀ t id, (s.locks.pc t).dropping = some id → s.isOpen id = false ∧ id < s.nextOpenFileDescriptionId

omit [DecidableEq τ] in
theorem isOpen_iff : s.isOpen id ↔ ∃ fd ∈ s.fds, fd.ofdOwnerId = some id := by
  simp [isOpen]

omit [DecidableEq τ] in
theorem Inv.initial : (initial : FlockSystem τ).Inv where
  compatible := .nil
  alive := nofun
  fresh := nofun
  dropping := nofun

theorem lockStep_some {act : LockAct} (h : s.lockStep t act = some s') :
    s.locks.step t act = some s'.locks ∧ s'.fds = s.fds ∧
      s'.nextOpenFileDescriptionId = s.nextOpenFileDescriptionId := by
  have ⟨locks, hl, he⟩ := Option.map_eq_some_iff.mp h
  subst he
  exact ⟨hl, rfl, rfl⟩

-- A step changes the descriptors, or it is one of the thread on the locks, or both at the end of a description.
inductive Effect (s s' : FlockSystem τ) (t : τ) : FlockAct → Prop
  | openFile {fd : LockDescriptor} (hl : s'.locks = s.locks)
      (hf : s'.fds = s.fds ++ [fd.withOwner s.nextOpenFileDescriptionId])
      (hn : s'.nextOpenFileDescriptionId = s.nextOpenFileDescriptionId + 1) : Effect s s' t (.openFile fd)
  | dup {i : Nat} {fd : LockDescriptor} (hi : s.fds[i]? = some fd) (hs : s' = { s with fds := s.fds ++ [fd] }) :
      Effect s s' t (.dup i)
  | close {i : Nat} {fd : LockDescriptor} (hi : s.fds[i]? = some fd) (hf : s'.fds = s.fds.eraseIdx i)
      (hn : s'.nextOpenFileDescriptionId = s.nextOpenFileDescriptionId)
      (hl : s'.locks = s.locks ∧ (∀ id, fd.ofdOwnerId = some id → s'.isOpen id) ∨
        ∃ id, fd.ofdOwnerId = some id ∧ s'.isOpen id = false ∧
          s.locks.step t (.start (.dropDescription id)) = some s'.locks) : Effect s s' t (.close i)
  | locks {act : FlockAct} {lockAct : LockAct} (hl : s.locks.step t lockAct = some s'.locks)
      (hd : ∀ id, lockAct ≠ .start (.dropDescription id)) (hr : lockAct = .run ↔ act = .run) (hf : s'.fds = s.fds)
      (hn : s'.nextOpenFileDescriptionId = s.nextOpenFileDescriptionId) : Effect s s' t act

theorem step_effect (h : s.step t act = some s') : Effect s s' t act := by
  cases act <;> simp only [step] at h
  case openFile fd => cases h; exact .openFile rfl rfl rfl
  case dup i =>
    have ⟨fd, hi, he⟩ := Option.map_eq_some_iff.mp h
    exact .dup hi he.symm
  case close i =>
    have ⟨fd, hi, h⟩ := Option.bind_eq_some_iff.mp h
    split at h
    case h_1 hn =>
      cases h
      exact .close hi rfl rfl (.inl ⟨rfl, by simp [hn]⟩)
    case h_2 id hid =>
      split at h
      case isTrue ho =>
        cases h
        exact .close hi rfl rfl (.inl ⟨rfl, fun id' he => by cases hid.symm.trans he; exact ho⟩)
      case isFalse ho =>
        have ⟨hl, hf, hn⟩ := lockStep_some h
        exact .close hi hf hn (.inr ⟨id, hid, by simpa [isOpen, hf] using ho, hl⟩)
  case flock =>
    have ⟨hl, hf, hn⟩ := lockStep_some h
    exact .locks hl (by simp) (by simp) hf hn
  case record call =>
    split_ifs at h with hc
    have ⟨hl, hf, hn⟩ := lockStep_some h
    exact .locks hl (fun id he => by cases he; cases hc) (by simp) hf hn
  case run =>
    have ⟨hl, hf, hn⟩ := lockStep_some h
    exact .locks hl (by simp) (by simp) hf hn
  case interrupt =>
    have ⟨hl, hf, hn⟩ := lockStep_some h
    exact .locks hl (by simp) (by simp) hf hn

omit [DecidableEq τ] in
theorem rest_sublist : (s.locks.rest want released).Sublist s.locks.wholeFile := by
  cases released
  case true => exact List.Sublist.refl _
  case false => exact List.filter_sublist

omit [DecidableEq τ] in
theorem not_isOf_of_mem_rest (hr : released → s.held want.file want.owner = []) {lock : WholeFileLock}
    (hm : lock ∈ s.locks.rest want released) : lock.isOf want.file want.owner = false := by
  cases released
  case true =>
    have hn : lock ∉ s.held want.file want.owner := by simp [hr rfl]
    by_contra hi
    exact hn (List.mem_filter.mpr ⟨hm, by simpa using hi⟩)
  case false => simpa using (List.mem_filter.mp hm).right

omit [DecidableEq τ] in
theorem compatible_grant (hc : s.locks.conflicts (.wholeFile want) = false)
    (hr : released → s.held want.file want.owner = []) {lock : WholeFileLock} (hm : lock ∈ s.locks.rest want released) :
    Compatible lock want := by
  intro hf
  have ho : lock.owner ≠ want.owner := by
    have := not_isOf_of_mem_rest hr hm
    simpa [WholeFileLock.isOf, hf] using this
  have hk : ¬ lock.kind.conflict want.kind := fun hk => by
    have := LockSystem.conflicts_wholeFile.mpr ⟨lock, rest_sublist.subset hm, hf, ho, hk⟩
    simp [hc] at this
  refine ⟨ho, ?_⟩
  revert hk
  cases lock.kind <;> cases want.kind <;> decide

theorem Inv.compatible_step (hi : s.Inv) (hk : s.KeepsFlock t act) (h : s.step t act = some s') :
    s'.locks.wholeFile.Pairwise Compatible := by
  cases step_effect h
  case openFile hl hf hn => exact hl ▸ hi.compatible
  case dup hs => exact hs ▸ hi.compatible
  case close hl =>
    cases hl
    case inl hl => exact hl.left ▸ hi.compatible
    case inr hl =>
      have ⟨id, _, _, hl⟩ := hl
      exact (LockSystem.step_wholeFile hl (by simp)) ▸ hi.compatible
  case locks lockAct hl hd hf hn hr =>
    by_cases hrun : lockAct = .run
    case neg => exact (LockSystem.step_wholeFile hl hrun) ▸ hi.compatible
    case pos =>
      subst hrun
      cases LockSystem.advance_whole hl
      case same hw => exact hw ▸ hi.compatible
      case grant want nonblock released hp hc hs hw =>
        have hr := (hk.granted want nonblock released (hr.mp rfl) hp hc).right
        rw [hw]
        refine List.pairwise_append.mpr ⟨hi.compatible.sublist rest_sublist, List.pairwise_singleton _ _, ?_⟩
        intro lock hm lock' hm'
        cases List.mem_singleton.mp hm'
        exact compatible_grant hc hr hm
      case refuse hw => exact hw ▸ hi.compatible.sublist rest_sublist
      case unlock hw => exact hw ▸ hi.compatible.sublist List.filter_sublist
      case drop hw => exact hw ▸ hi.compatible.sublist List.filter_sublist

-- A description that a step on the locks leaves with a lock is as alive as it was.
theorem Alive.step {lockAct : LockAct} (ha : s.Alive id) (hl : s.locks.step t lockAct = some s'.locks)
    (hf : s'.fds = s.fds) : s'.Alive id ∨ ∀ lock ∈ s'.locks.wholeFile, lock.owner ≠ id := by
  cases ha
  case inl ho => exact .inl (.inl (by simpa [isOpen, hf] using ho))
  case inr hd =>
    have ⟨t', hd⟩ := hd
    exact (LockSystem.step_keeps_dropping hl hd).imp_left fun hd => .inr ⟨t', hd⟩

theorem Inv.alive_step (hi : s.Inv) (hk : s.KeepsFlock t act) (h : s.step t act = some s') :
    ∀ lock ∈ s'.locks.wholeFile, s'.Alive lock.owner := by
  intro lock hm
  cases step_effect h
  case openFile hl hf hn =>
    refine (hi.alive lock (hl ▸ hm)).imp (fun ho => ?_) (fun hd => hl.symm ▸ hd)
    simp only [isOpen, hf, List.any_append, Bool.or_eq_true]
    exact .inl ho
  case dup hs =>
    subst hs
    refine (hi.alive lock hm).imp_left fun ho => ?_
    simp only [isOpen, List.any_append, Bool.or_eq_true]
    exact .inl ho
  case close i fd hfd hf hn hl =>
    -- The owner of the lock is the description that the descriptor belonged to, or keeps its own.
    have hopen (ho : s.isOpen lock.owner) : fd.ofdOwnerId = some lock.owner ∨ s'.isOpen lock.owner := by
      have ⟨fd', hm', hid⟩ := isOpen_iff.mp ho
      have ⟨j, hj⟩ := List.mem_iff_getElem?.mp hm'
      by_cases he : j = i
      case pos => cases (he ▸ hj).symm.trans hfd; exact .inl hid
      case neg =>
        refine .inr (isOpen_iff.mpr ⟨fd', ?_, hid⟩)
        rw [hf, List.mem_eraseIdx_iff_getElem?]
        exact ⟨j, he, hj⟩
    cases hl
    case inl hl =>
      cases hi.alive lock (hl.left ▸ hm)
      case inl ho => exact .inl ((hopen ho).elim (hl.right _) id)
      case inr hd => exact .inr (hl.left.symm ▸ hd)
    case inr hl =>
      have ⟨id, hid, hno, hl⟩ := hl
      have hw := LockSystem.step_wholeFile hl (by simp)
      cases hi.alive lock (hw ▸ hm)
      case inl ho =>
        refine (hopen ho).elim (fun he => .inr ⟨t, ?_⟩) .inl
        cases he.symm.trans hid
        exact LockSystem.dropping_start hl
      case inr hd =>
        have ⟨t', hd⟩ := hd
        exact (LockSystem.step_keeps_dropping hl hd).elim (fun hd => .inr ⟨t', hd⟩) fun hn => absurd rfl (hn lock hm)
  case locks lockAct hl hd hf hn hr =>
    have ha : s.Alive lock.owner := by
      by_cases hrun : lockAct = .run
      case neg => exact hi.alive lock (LockSystem.step_wholeFile hl hrun ▸ hm)
      case pos =>
        subst hrun
        cases LockSystem.advance_whole hl
        case same hw => exact hi.alive lock (hw ▸ hm)
        case grant want nonblock released hp hc hs hw =>
          rw [hw] at hm
          cases List.mem_append.mp hm
          case inl hm => exact hi.alive lock (rest_sublist.subset hm)
          case inr hm =>
            cases List.mem_singleton.mp hm
            exact (hk.granted lock nonblock released (hr.mp rfl) hp hc).left
        case refuse hw => exact hi.alive lock (rest_sublist.subset (hw ▸ hm))
        case unlock hw => exact hi.alive lock (List.filter_sublist.subset (hw ▸ hm))
        case drop hw => exact hi.alive lock (List.filter_sublist.subset (hw ▸ hm))
    exact (ha.step hl hf).resolve_right fun hn => hn lock hm rfl

theorem Inv.fresh_step (hi : s.Inv) (h : s.step t act = some s') :
    ∀ id, s'.isOpen id → id < s'.nextOpenFileDescriptionId := by
  intro id ho
  have ⟨fd, hm, hid⟩ := isOpen_iff.mp ho
  cases step_effect h
  case openFile hl hf hn =>
    rw [hf, List.mem_append] at hm
    cases hm
    case inl hm => exact hn ▸ Nat.lt_succ_of_lt (hi.fresh id (isOpen_iff.mpr ⟨fd, hm, hid⟩))
    case inr hm =>
      cases List.mem_singleton.mp hm
      have := LockDescriptor.ofdOwnerId_withOwner hid
      omega
  case dup hfd hs =>
    subst hs
    cases List.mem_append.mp hm
    case inl hm => exact hi.fresh id (isOpen_iff.mpr ⟨fd, hm, hid⟩)
    case inr hm =>
      cases List.mem_singleton.mp hm
      exact hi.fresh id (isOpen_iff.mpr ⟨fd, List.mem_of_getElem? hfd, hid⟩)
  case close hf hn _ => exact hn ▸ hi.fresh id (isOpen_iff.mpr ⟨fd, List.mem_of_mem_eraseIdx (hf ▸ hm), hid⟩)
  case locks hf hn _ => exact hn ▸ hi.fresh id (isOpen_iff.mpr ⟨fd, hf ▸ hm, hid⟩)

theorem Inv.dropping_step (hi : s.Inv) (h : s.step t act = some s') : ∀ t' id,
    (s'.locks.pc t').dropping = some id → s'.isOpen id = false ∧ id < s'.nextOpenFileDescriptionId := by
  intro t' id hd
  cases step_effect h
  case openFile fd hl hf hn =>
    have ⟨hno, hlt⟩ := hi.dropping t' id (hl ▸ hd)
    have hnew : (fd.withOwner s.nextOpenFileDescriptionId).ofdOwnerId ≠ some id := fun he => by
      have := LockDescriptor.ofdOwnerId_withOwner he
      omega
    exact ⟨by simpa [isOpen, hf, hnew] using hno, by omega⟩
  case dup fd hfd hs =>
    subst hs
    have ⟨hno, hlt⟩ := hi.dropping t' id hd
    have hfd : fd.ofdOwnerId ≠ some id := fun he => by
      simp [isOpen_iff.mpr ⟨fd, List.mem_of_getElem? hfd, he⟩] at hno
    exact ⟨by simpa [isOpen, hfd] using hno, hlt⟩
  case close i fd hfd hf hn hl =>
    have hless (hno : s.isOpen id = false) : s'.isOpen id = false := by
      by_contra ho
      have ⟨fd', hm, he⟩ := isOpen_iff.mp (Bool.not_eq_false _ ▸ ho)
      simp [isOpen_iff.mpr ⟨fd', List.mem_of_mem_eraseIdx (hf ▸ hm), he⟩] at hno
    have hold (hd : (s.locks.pc t').dropping = some id) := hi.dropping t' id hd
    cases hl
    case inl hl => exact (hold (hl.left ▸ hd)).imp hless (hn ▸ ·)
    case inr hl =>
      have ⟨id', hid, hno, hl⟩ := hl
      cases LockSystem.step_dropping hl hd
      case inl hd => exact (hold hd).imp hless (hn ▸ ·)
      case inr he =>
        cases he.right
        exact ⟨hno, hn ▸ hi.fresh id (isOpen_iff.mpr ⟨fd, List.mem_of_getElem? hfd, hid⟩)⟩
  case locks lockAct hl hne hf hn _ =>
    have hd := (LockSystem.step_dropping hl hd).resolve_right fun he => hne id he.right
    have ⟨hno, hlt⟩ := hi.dropping t' id hd
    exact ⟨by simpa [isOpen, hf] using hno, hn ▸ hlt⟩

theorem Inv.step (hi : s.Inv) (hk : s.KeepsFlock t act) (h : s.step t act = some s') : s'.Inv where
  compatible := hi.compatible_step hk h
  alive := hi.alive_step hk h
  fresh := hi.fresh_step h
  dropping := hi.dropping_step h

theorem Reachable.inv (h : Reachable KeepsFlock s) : s.Inv := by
  induction h
  case initial => exact .initial
  case step _ hk h hi => exact hi.step hk h

omit [DecidableEq τ] in
theorem Inv.shared (hi : s.Inv) (file : FileLockKey) :
    (∀ lock ∈ s.holders file, lock.kind = .read) ∨ ∃ lock, s.holders file = [lock] := by
  have hp : (s.holders file).Pairwise fun lock lock' => lock.kind = .read ∧ lock'.kind = .read := by
    refine (hi.compatible.sublist List.filter_sublist).imp_of_mem fun {lock lock'} hm hm' hc => ?_
    have hf : lock.file = file := by simpa using (List.mem_filter.mp hm).right
    have hf' : lock'.file = file := by simpa using (List.mem_filter.mp hm').right
    exact (hc (hf.trans hf'.symm)).right
  cases hh : s.holders file
  case nil => exact .inl nofun
  case cons lock locks =>
    rw [hh] at hp
    cases locks
    case nil => exact .inr ⟨lock, rfl⟩
    case cons lock' locks =>
      have ⟨hhead, _⟩ := List.pairwise_cons.mp hp
      refine .inl fun lock'' hm => ?_
      cases List.mem_cons.mp hm
      case inl he => exact he ▸ (hhead lock' (by simp)).left
      case inr hm => exact (hhead lock'' hm).right

omit [DecidableEq τ] in
theorem Inv.single (hi : s.Inv) (file : FileLockKey) : ((s.holders file).map (·.owner)).Nodup := by
  rw [List.nodup_iff_pairwise_ne, List.pairwise_map]
  refine (hi.compatible.sublist List.filter_sublist).imp_of_mem fun {lock lock'} hm hm' hc => ?_
  have hf : lock.file = file := by simpa using (List.mem_filter.mp hm).right
  have hf' : lock'.file = file := by simpa using (List.mem_filter.mp hm').right
  exact (hc (hf.trans hf'.symm)).left

theorem run_locks (h : s.step t .run = some s') : s.locks.advance t (s.locks.pc t) = some s'.locks :=
  (lockStep_some h).left

theorem run_granted (hr : released → s.held want.file want.owner = []) (h : s.step t .run = some s')
    (hp : s.locks.pc t = .flock want nonblock released) (hc : s.locks.conflicts (.wholeFile want) = false) :
    s'.locks.pc t = .idle ∧ s'.held want.file want.owner = [want] := by
  have hl := run_locks h
  rw [hp, LockSystem.advance_flock, hc] at hl
  have hl := Option.some.inj hl
  have hrest : (s.locks.rest want released).filter (·.isOf want.file want.owner) = [] :=
    List.filter_eq_nil_iff.mpr fun lock hm => by simp [not_isOf_of_mem_rest hr hm]
  rw [held, ← hl]
  refine ⟨LockSystem.goto_self, ?_⟩
  rw [if_neg Bool.false_ne_true, LockSystem.goto_wholeFile, List.filter_append, hrest]
  simp [WholeFileLock.isOf]

theorem run_unlocked (h : s.step t .run = some s') (hp : s.locks.pc t = .flockUnlock file owner) :
    s'.held file owner = [] := by
  have hl := run_locks h
  rw [hp] at hl
  have hl := Option.some.inj hl
  rw [held, ← hl, LockSystem.goto_wholeFile]
  exact List.filter_eq_nil_iff.mpr fun lock hm => by simpa using (List.mem_filter.mp hm).right

omit [DecidableEq τ] in
theorem filter_rest : (s.locks.rest want released).filter (!·.isOf want.file want.owner) =
    s.others want.file want.owner := by
  cases released
  case true => rfl
  case false => simp [LockSystem.rest, others]

theorem run_others (h : s.step t .run = some s') (hf : (s.locks.pc t).flocking = some (file, owner)) :
    s'.others file owner = s.others file owner := by
  cases LockSystem.advance_whole (run_locks h)
  case same hw => rw [others, hw, others]
  case grant want _ _ hp _ _ hw =>
    cases (congrArg LockPc.flocking hp).symm.trans hf
    rw [others, hw, List.filter_append, filter_rest]
    simp [WholeFileLock.isOf]
  case refuse want _ _ hp hw =>
    cases (congrArg LockPc.flocking hp).symm.trans hf
    rw [others, hw, filter_rest]
  case unlock hp hw =>
    cases (congrArg LockPc.flocking hp).symm.trans hf
    simp [others, hw]
  case drop hp _ => cases (congrArg LockPc.flocking hp).symm.trans hf

theorem step_wholeFile (h : s.step t act = some s') (hn : act ≠ .run) :
    s'.locks.wholeFile = s.locks.wholeFile := by
  cases step_effect h
  case openFile hl _ _ => rw [hl]
  case dup hs => rw [hs]
  case close hl =>
    cases hl
    case inl hl => rw [hl.left]
    case inr hl =>
      have ⟨_, _, _, hl⟩ := hl
      exact LockSystem.step_wholeFile hl (by simp)
  case locks hl _ _ _ hr => exact LockSystem.step_wholeFile hl fun he => hn (hr.mp he)

theorem run_dropped (hk : s.KeepsFlock t .run) (h : s.step t .run = some s')
    (hp : s.locks.pc t = .flock want nonblock false) (hc : s.locks.conflicts (.wholeFile want))
    (hh : s.held want.file want.owner ≠ []) {wait : LockWait} (ha : s'.locks.pc t' = .asleep wait false) :
    wait.file ≠ want.file := by
  have hl := run_locks h
  rw [hp, LockSystem.advance_flock, hc] at hl
  have hl := Option.some.inj hl
  have hn : t' ≠ t := fun he => by
    rw [he, ← hl, if_pos rfl, LockSystem.goto_self] at ha
    cases nonblock <;> cases ha
  refine hk.refused want nonblock rfl hp hc hh t' wait ?_
  rwa [← hl, if_pos rfl, LockSystem.goto_ne hn] at ha

theorem step_duplicate {i : Nat} (h : s.step t (.dup i) = some s') :
    s'.locks = s.locks ∧ s'.fds[s.fds.length]? = s'.fds[i]? ∧ s'.fds[i]? = s.fds[i]? := by
  have ⟨fd, hi, hs⟩ := Option.map_eq_some_iff.mp h
  have ⟨hlt, _⟩ := List.getElem?_eq_some_iff.mp hi
  simp [← hs, hi, List.getElem?_append_left hlt]

theorem Inv.kept (hi : s.Inv) (h : s.step t act = some s') {lock : WholeFileLock} (hm : lock ∈ s.locks.wholeFile)
    (hn : lock ∉ s'.locks.wholeFile) :
    (s.locks.pc t).flocking = some (lock.file, lock.owner) ∨ s.isOpen lock.owner = false := by
  by_cases hrun : act = .run
  case neg => exact absurd (step_wholeFile h hrun ▸ hm) hn
  case pos =>
    subst hrun
    have hrest {want : WholeFileLock} {released : Bool} (hn : lock ∉ s.locks.rest want released) :
        lock.file = want.file ∧ lock.owner = want.owner := by
      cases released
      case true => exact absurd hm hn
      case false => simpa [LockSystem.rest, hm, WholeFileLock.isOf] using hn
    cases LockSystem.advance_whole (run_locks h)
    case same hw => exact absurd (hw ▸ hm) hn
    case grant hp _ _ hw =>
      obtain ⟨hf, ho⟩ := hrest fun hm => hn (hw ▸ List.mem_append_left _ hm)
      exact .inl (by rw [hp, LockPc.flocking, hf, ho])
    case refuse hp hw =>
      obtain ⟨hf, ho⟩ := hrest (hw ▸ hn)
      exact .inl (by rw [hp, LockPc.flocking, hf, ho])
    case unlock file owner hp hw =>
      rw [hw] at hn
      obtain ⟨hf, ho⟩ : lock.file = file ∧ lock.owner = owner := by simpa [hm, WholeFileLock.isOf] using hn
      exact .inl (by rw [hp, LockPc.flocking, hf, ho])
    case drop id _ hp hw =>
      rw [hw] at hn
      have ho : lock.owner = id := by simpa [hm] using hn
      exact .inr (hi.dropping t lock.owner (by rw [hp, ho]; rfl)).left

-- `flock` keeps its promises in a run whose steps all meet the condition.
theorem flock_exact (h : Reachable KeepsFlock s) : s.Exact KeepsFlock where
  shared := h.inv.shared
  single := h.inv.single
  granted _ _ _ _ _ hk hs hp hc := run_granted (hk.granted _ _ _ rfl hp hc).right hs hp hc
  unlocked _ _ _ _ := run_unlocked
  others _ _ _ _ := run_others
  failed _ _ _ := step_wholeFile
  dropped _ _ _ _ hk hs hp hc hh _ _ := run_dropped hk hs hp hc hh
  duplicate _ _ _ := step_duplicate
  kept _ _ _ hs _ := h.inv.kept hs
  released := h.inv.alive

omit [DecidableEq τ] in
theorem KeepsFlock.of_ne (h : act ≠ .run) : s.KeepsFlock t act where
  granted _ _ _ he := absurd he h
  refused _ _ he := absurd he h

-- A first attempt that is granted to an open description.
omit [DecidableEq τ] in
theorem KeepsFlock.of_granted (hp : s.locks.pc t = .flock want nonblock false)
    (hc : s.locks.conflicts (.wholeFile want) = false) (ho : s.isOpen want.owner) : s.KeepsFlock t act where
  granted want' _ _ _ hp' _ := by
    cases hp.symm.trans hp'
    exact ⟨.inl ho, fun h => absurd h Bool.false_ne_true⟩
  refused want' _ _ hp' hc' := by
    cases hp.symm.trans hp'
    exact absurd (hc.symm.trans hc') Bool.false_ne_true

def someFile : LockDescriptor :=
  .ext4Regular 5 0 0 true true 0

def flockAct (i : Nat) (operation : BitVec 64) : FlockAct :=
  .flock i operation fun _ => none

-- Two descriptions share a file.
theorem flock_exact_shared : ∃ s : FlockSystem Bool,
    s.holders (.ext4 5) = [⟨.ext4 5, 1, .read⟩, ⟨.ext4 5, 2, .read⟩] ∧ s.Exact KeepsFlock := by
  have h : Reachable KeepsFlock _ := .step .initial (.of_ne (by simp))
    (rfl : initial.step false (.openFile someFile) = some _)
  have h := h.step (.of_ne (by simp)) (rfl : step _ false (.openFile someFile) = some _)
  have h := h.step (.of_ne (by simp [flockAct])) (rfl : step _ false (flockAct 0 LOCK_SH) = some _)
  have h := h.step (.of_granted rfl rfl rfl) (rfl : step _ false .run = some _)
  have h := h.step (.of_ne (by simp [flockAct])) (rfl : step _ true (flockAct 1 LOCK_SH) = some _)
  have h := h.step (.of_granted rfl rfl rfl) (rfl : step _ true .run = some _)
  exact ⟨_, rfl, flock_exact h⟩

theorem Reachable.run (hp : ∀ s t act, p s t act) (hs : Reachable p s) {steps : List (τ × FlockAct)}
    (h : s.run steps = some s') : Reachable p s' := by
  induction steps generalizing s
  case nil => cases h; exact hs
  case cons step steps hi =>
    have ⟨_, hstep, hrun⟩ := Option.bind_eq_some_iff.mp h
    exact hi (hs.step (hp ..) hstep) hrun

-- Descriptions 1 and 2 share the file and description 3 waits for it. Description 1 then asks for it alone, without
-- waiting.
def upgradeSteps : List (Bool × FlockAct) :=
  [(false, .openFile someFile), (false, .openFile someFile), (false, .openFile someFile),
    (false, flockAct 0 LOCK_SH), (false, .run), (false, flockAct 1 LOCK_SH), (false, .run),
    (true, flockAct 2 LOCK_EX), (true, .run), (true, .run), (true, .run), (false, flockAct 0 (LOCK_EX ||| LOCK_NB))]

-- It has lost its lock, and the waiter sleeps on.
theorem upgradeSteps_not_exact : ¬ ∀ s : FlockSystem Bool, Reachable (fun _ _ _ => True) s →
    s.Exact fun _ _ _ => True := by
  intro h
  have hr : Reachable (fun _ _ _ => True) _ :=
    Reachable.run (fun _ _ _ => trivial) .initial (rfl : initial.run upgradeSteps = some _)
  exact (h _ hr).dropped false ⟨.ext4 5, 1, .write⟩ true _ trivial rfl rfl rfl (by decide) true
    (.wholeFile ⟨.ext4 5, 3, .write⟩) rfl rfl

end FlockSystem

end WllOs
