import WllOs.Fs.LockWait
import WllOs.Fs.Theorems.RecordLock

namespace WllOs

-- The ranges that a thread works with have bytes.
def LockWait.Fits : LockWait → Prop
  | record want => want.range.bytes.Nonempty
  | wholeFile _ => True

def LockPc.Fits : LockPc → Prop
  | unlock _ _ range => range.bytes.Nonempty
  | attempt want _ | judge want _ | register want _ => want.range.bytes.Nonempty
  | enroll wait | recheck wait _ | asleep wait _ => wait.Fits
  | _ => True

namespace LockPc

variable {pc : LockPc} {wait : LockWait} {file : FileLockKey} {woken : Bool}

@[simp]
theorem owed_wakeFor : (pc.wakeFor file).owed = pc.owed := by
  cases pc <;> rfl

theorem Fits.wakeFor (h : pc.Fits) : (pc.wakeFor file).Fits := by
  cases pc <;> exact h

theorem Fits.retry (h : wait.Fits) : (LockPc.retry wait).Fits := by
  cases wait
  case record => exact h
  case wholeFile => trivial

-- A task that a wake leaves asleep waits for another file.
theorem asleep_of_wakeFor (h : pc.wakeFor file = .asleep wait false) :
    pc = .asleep wait false ∧ wait.file ≠ file := by
  cases pc <;> simp only [LockPc.wakeFor, reduceCtorEq] at h
  case asleep wait' woken =>
    simp only [asleep.injEq, Bool.or_eq_false_iff, decide_eq_false_iff_not] at h
    obtain ⟨rfl, rfl, hn⟩ := h
    exact ⟨rfl, fun he => hn (by rw [he])⟩

end LockPc

theorem LockCall.entry_fits {call : LockCall} (h : (LockAct.start call).Fits) : call.entry.Fits := by
  cases call
  case fcntl call =>
    simp only [entry]
    split
    case h_1 => trivial
    case h_2 request hr =>
      split
      case isTrue => trivial
      case isFalse hg =>
        have ⟨_, _, _, hn⟩ := FcntlLockCall.request_fits hr (by simpa using hg) h
        split <;> exact hn
  case flock call =>
    simp only [entry]
    split <;> trivial
  all_goals trivial

def LockPc.isAsleep : LockPc → Bool
  | asleep _ false => true
  | _              => false

theorem LockPc.ne_asleep {pc : LockPc} (h : pc.isAsleep = false) (wait : LockWait) : pc ≠ .asleep wait false := by
  rintro rfl
  cases h

-- Neither a request that conflicts with a lock nor a task that falls asleep.
def LockPc.isPlain : LockPc → Bool
  | judge .. | register .. => false
  | pc                     => !pc.isAsleep

theorem LockPc.not_asleep {pc : LockPc} (h : pc.isPlain) : pc.isAsleep = false := by
  cases pc <;> first | rfl | simpa [isPlain] using h

theorem LockCall.entry_plain (call : LockCall) : call.entry.isPlain := by
  cases call
  case fcntl call =>
    simp only [entry]
    split
    case h_1 => rfl
    case h_2 => split_ifs <;> (try split) <;> rfl
  case flock call =>
    simp only [entry]
    split <;> rfl
  all_goals rfl

theorem LockPc.retry_plain (wait : LockWait) : (LockPc.retry wait).isPlain := by
  cases wait <;> rfl

namespace LockSystem

variable {τ : Type} [DecidableEq τ] {s s' : LockSystem τ} {t t' : τ} {act : LockAct} {pc : LockPc} {wait : LockWait}
  {file : FileLockKey} {owner : FileLockOwner} {byte : Nat} {kind : FileLockKind}

@[simp]
theorem goto_self : (s.goto t pc).pc t = pc :=
  Function.update_self ..

theorem goto_ne (h : t' ≠ t) : (s.goto t pc).pc t' = s.pc t' :=
  Function.update_of_ne h ..

@[simp]
theorem goto_records : (s.goto t pc).records = s.records :=
  rfl

@[simp]
theorem goto_wholeFile : (s.goto t pc).wholeFile = s.wholeFile :=
  rfl

@[simp]
theorem goto_conflicts : (s.goto t pc).conflicts wait = s.conflicts wait := by
  cases wait <;> rfl

-- What a step does to the tables of locks.
inductive TableStep (s s' : LockSystem τ) (t : τ) : Prop
  | same (hr : s'.records = s.records) (hw : s'.wholeFile = s.wholeFile)
  | unlock {file : FileLockKey} {owner : FileLockOwner} {range : FileLockRange} (h : s.pc t = .unlock file owner range)
      (hr : s'.records = applyFileUnlock file owner range s.records) (hw : s'.wholeFile = s.wholeFile)
      (ho : file ∈ (s'.pc t).owed)
  | grant {want : FileRecordLock} {blocking : Bool} (h : s.pc t = .attempt want blocking)
      (hr : applyFileLock s.records want.file want.owner want.pid (some want.kind) want.range = .ok s'.records)
      (hw : s'.wholeFile = s.wholeFile)
  | releaseRecords (gone : FileRecordLock → Bool) (hr : s'.records = s.records.filter (!gone ·))
      (hw : s'.wholeFile = s.wholeFile) (ho : ∀ lock ∈ s.records, gone lock → lock.file ∈ (s'.pc t).owed)
  | flock {want : WholeFileLock} {nonblock releasedPrevious : Bool} (h : s.pc t = .flock want nonblock releasedPrevious)
      (hr : s'.records = s.records)
      (hk : ∀ lock ∈ s.wholeFile, lock ∈ s'.wholeFile ∨ releasedPrevious = false ∧ lock.isOf want.file want.owner)
      (hw : want ∈ s'.wholeFile ∨ s.conflicts (.wholeFile want))
  | releaseWhole (gone : WholeFileLock → Bool) (hr : s'.records = s.records)
      (hw : s'.wholeFile = s.wholeFile.filter (!gone ·))
      (ho : ∀ lock ∈ s.wholeFile, gone lock → lock.file ∈ (s'.pc t).owed)

-- The locks of an owner do not conflict with its own requests.
theorem conflicts_filter {locks : List WholeFileLock} {want : WholeFileLock} :
    wholeFileLockConflicts (locks.filter (!·.isOf want.file want.owner)) want.file want.owner want.kind =
      wholeFileLockConflicts locks want.file want.owner want.kind := by
  rw [Bool.eq_iff_iff]
  simp only [wholeFileLockConflicts, List.any_eq_true, List.mem_filter, WholeFileLock.isOf, Bool.and_eq_true,
    decide_eq_true_eq]
  refine exists_congr fun lock => ⟨fun h => ⟨h.left.left, h.right⟩, fun h => ⟨⟨h.left, ?_⟩, h.right⟩⟩
  simp [h.right.left.right]

theorem advance_tables (h : s.advance t (s.pc t) = some s') : TableStep s s' t := by
  cases hp : s.pc t <;> simp only [hp, advance] at h
  case idle => cases h
  case unlock => cases h; exact .unlock hp rfl rfl (by simp [LockPc.owed])
  case attempt want blocking =>
    split at h
    case h_1 records ha => cases h; exact .grant hp ha rfl
    case h_2 =>
      split_ifs at h
      case pos => cases h; exact .same rfl rfl
      case neg => split at h <;> cases h <;> exact .same rfl rfl
  case judge => split_ifs at h <;> cases h <;> exact .same rfl rfl
  case register => cases h; exact .same rfl rfl
  case flockUnlock file owner =>
    cases h
    refine .releaseWhole (·.isOf file owner) rfl rfl fun lock hm hg => ?_
    have hf : lock.file = file := by
      simp only [WholeFileLock.isOf, Bool.and_eq_true, decide_eq_true_eq] at hg
      exact hg.left
    have ha : s.wholeFile.any (·.isOf file owner) := List.any_eq_true.mpr ⟨lock, hm, hg⟩
    simp [ha, hf, LockPc.owed]
  case flock want nonblock releasedPrevious =>
    have hc : wholeFileLockConflicts (if releasedPrevious then s.wholeFile
        else s.wholeFile.filter (!·.isOf want.file want.owner)) want.file want.owner want.kind =
          s.conflicts (.wholeFile want) := by
      split
      case isTrue => rfl
      case isFalse => exact conflicts_filter
    have hk : ∀ lock ∈ s.wholeFile, lock ∈ (if releasedPrevious then s.wholeFile
        else s.wholeFile.filter (!·.isOf want.file want.owner)) ∨
          releasedPrevious = false ∧ lock.isOf want.file want.owner := by
      intro lock hm
      cases releasedPrevious
      case true => exact .inl hm
      case false => by_cases hl : lock.isOf want.file want.owner <;> simp [hm, hl]
    rw [hc] at h
    split at h
    case isTrue =>
      cases h
      exact .flock hp rfl (fun lock hm => (hk lock hm).imp_left (List.mem_append_left _)) (.inl (by simp))
    case isFalse hn =>
      cases h
      exact .flock hp rfl hk (.inr (by simpa using hn))
  case enroll => cases h; exact .same rfl rfl
  case recheck => cases h; exact .same rfl rfl
  case asleep =>
    split_ifs at h
    cases h; exact .same rfl rfl
  case release rest =>
    cases rest
    case nil => cases h; exact .same rfl rfl
    case cons entry rest =>
      cases h
      refine .releaseRecords (fun lock => lock.file = entry.2 && lock.owner = .posix entry.1) rfl rfl fun lock hm hg => ?_
      have ha : s.records.any fun lock => lock.file = entry.2 && lock.owner = .posix entry.1 :=
        List.any_eq_true.mpr ⟨lock, hm, hg⟩
      simp only [Bool.and_eq_true, decide_eq_true_eq] at hg
      simp [ha, hg, LockPc.owed]
  case exit pid =>
    cases h
    refine .releaseRecords (·.owner = .posix pid) (by simp [releaseFileLocksForPid]) rfl fun lock hm hg => ?_
    simpa [LockPc.owed] using ⟨lock, ⟨hm, by simpa using hg⟩, rfl⟩
  case dropRecords id =>
    cases h
    refine .releaseRecords (·.owner = .ofd id) (by simp [releaseFileLocksForOfd]) rfl fun lock hm hg => ?_
    simpa [LockPc.owed] using ⟨lock, ⟨hm, by simpa using hg⟩, rfl⟩
  case dropWhole id files =>
    cases h
    refine .releaseWhole (·.owner = id) rfl (by simp) fun lock hm hg => ?_
    simpa [LockPc.owed] using .inr ⟨lock, ⟨hm, by simpa using hg⟩, rfl⟩
  case forget => cases h; exact .same rfl rfl
  case wake wakes rest => cases wakes <;> cases h <;> exact .same rfl rfl

theorem step_tables (h : s.step t act = some s') : TableStep s s' t := by
  cases act
  case start call =>
    simp only [step] at h
    split_ifs at h
    cases h
    exact .same rfl rfl
  case run => exact advance_tables h
  case interrupt err =>
    simp only [step] at h
    split at h
    case h_1 wait _ | h_2 wait _ _ | h_3 wait _ _ => cases h; cases wait <;> exact .same rfl rfl
    case h_4 => cases h

-- What a step does to the threads: it moves its own, and wakes the waiters of a file. Its thread falls asleep only in
-- a request that conflicts with a lock, and keeps the wakes that it owes until it makes them.
inductive PcStep (s s' : LockSystem τ) (t : τ) : Prop
  | move (h : ∀ t' ≠ t, s'.pc t' = s.pc t') (ha : ∀ wait, s'.pc t = .asleep wait false → s'.conflicts wait)
      (ho : ∀ file ∈ (s.pc t).owed, file ∈ (s'.pc t).owed)
  | wake {file : FileLockKey} {wakes : List FileLockKey} {rest : List (Nat × FileLockKey)}
      (h : s.pc t = .wake (file :: wakes) rest) (hs : s'.pc t = .wake wakes rest)
      (ho : ∀ t' ≠ t, s'.pc t' = (s.pc t').wakeFor file)

theorem PcStep.goto {records : List FileRecordLock} {waiters : List FileLockWaiter} {wholeFile : List WholeFileLock}
    (ha : pc.isAsleep = false) (ho : ∀ file ∈ (s.pc t).owed, file ∈ pc.owed) :
    PcStep s (LockSystem.goto ⟨records, waiters, wholeFile, s.pc⟩ t pc) t :=
  .move (fun _ hn => goto_ne hn) (fun wait he => absurd (goto_self.symm.trans he) (LockPc.ne_asleep ha wait))
    fun file hm => by rw [goto_self]; exact ho file hm

theorem advance_pc (h : s.advance t (s.pc t) = some s') : PcStep s s' t := by
  cases hp : s.pc t <;> simp only [hp, advance] at h
  case idle => cases h
  case attempt =>
    split at h
    case h_1 => cases h; exact .goto rfl (by simp [hp, LockPc.owed])
    case h_2 => split_ifs at h <;> (try split at h) <;> cases h <;> exact .goto rfl (by simp [hp, LockPc.owed])
  case judge => split_ifs at h <;> cases h <;> exact .goto rfl (by simp [hp, LockPc.owed])
  case flock want nonblock releasedPrevious =>
    generalize (if releasedPrevious then _ else _) = locks at h
    split at h <;> cases h
    case isTrue => exact .goto rfl (by simp [hp, LockPc.owed])
    case isFalse => exact .goto (by cases nonblock <;> rfl) (by simp [hp, LockPc.owed])
  case recheck wait woken =>
    cases h
    refine .move (fun _ hn => goto_ne hn) (fun wait' he => ?_) (by simp [hp, LockPc.owed])
    rw [goto_self] at he
    split at he
    case isTrue hc => cases he; rwa [goto_conflicts]
    case isFalse => exact absurd he (LockPc.ne_asleep (LockPc.not_asleep (LockPc.retry_plain wait)) _)
  case asleep wait _ =>
    split_ifs at h
    cases h
    exact .goto (LockPc.not_asleep (LockPc.retry_plain _)) (by simp [hp, LockPc.owed])
  case dropWhole id files =>
    cases h
    exact .goto rfl fun file hm => by simpa [LockPc.owed] using .inl (by simpa [hp, LockPc.owed] using hm)
  case release rest => cases rest <;> cases h <;> exact .goto rfl (by simp [hp, LockPc.owed])
  case wake wakes rest =>
    cases wakes
    case nil => cases h; exact .goto rfl (by simp [hp, LockPc.owed])
    case cons => cases h; exact .wake hp goto_self fun _ hn => goto_ne hn
  all_goals cases h; exact .goto rfl (by simp [hp, LockPc.owed])

theorem step_pc (h : s.step t act = some s') : PcStep s s' t := by
  cases act
  case start call =>
    simp only [step] at h
    split_ifs at h with hp
    cases h
    exact .goto (LockPc.not_asleep call.entry_plain) (by simp [hp, LockPc.owed])
  case run => exact advance_pc h
  case interrupt err =>
    simp only [step] at h
    split at h
    case h_1 wait hp | h_2 wait _ hp | h_3 wait _ hp =>
      cases h
      cases wait <;> refine .goto ?_ (by simp [hp, LockPc.owed]) <;> (try split) <;> rfl
    case h_4 => cases h

-- Another thread that is asleep after a step was asleep before it.
omit [DecidableEq τ] in
theorem PcStep.asleep (h : PcStep s s' t) (hn : t' ≠ t) (ha : s'.pc t' = .asleep wait false) :
    s.pc t' = .asleep wait false := by
  cases h
  case move h _ _ => exact h t' hn ▸ ha
  case wake ho => exact (LockPc.asleep_of_wakeFor (ho t' hn ▸ ha)).left

omit [DecidableEq τ] in
theorem PcStep.owed_ne (h : PcStep s s' t) (hn : t' ≠ t) : (s'.pc t').owed = (s.pc t').owed := by
  cases h
  case move h _ _ => rw [h t' hn]
  case wake ho => rw [ho t' hn, LockPc.owed_wakeFor]

omit [DecidableEq τ] in
theorem PcStep.owed (h : PcStep s s' t) (ho : file ∈ (s.pc t).owed) :
    file ∈ (s'.pc t).owed ∨ ∀ t' wait, s'.pc t' = .asleep wait false → wait.file ≠ file := by
  cases h
  case move h => exact .inl (h file ho)
  case wake woken wakes rest hp hs hn =>
    rw [hp] at ho
    cases List.mem_cons.mp ho
    case inr ho => exact .inl (by rw [hs]; exact ho)
    case inl he =>
      refine .inr fun t' wait ha => ?_
      have hne : t' ≠ t := fun h => by rw [h, hs] at ha; cases ha
      exact he ▸ (LockPc.asleep_of_wakeFor (hn t' hne ▸ ha)).right

theorem step_asleep (h : s.step t act = some s') (ha : s'.pc t = .asleep wait false) : s'.conflicts wait := by
  cases step_pc h
  case move hm _ => exact hm wait ha
  case wake hs _ => rw [hs] at ha; cases ha

-- What is true of the system between two steps.
structure Sound (s : LockSystem τ) : Prop where
  records : RecordsSound s.records
  fits : ∀ t, (s.pc t).Fits

omit [DecidableEq τ] in
theorem Sound.initial : (initial : LockSystem τ).Sound :=
  ⟨.nil, fun _ => trivial⟩

-- A step moves its thread to a place whose ranges have bytes as well.
theorem advance_fits (hs : s.Sound) (h : s.advance t (s.pc t) = some s') : (s'.pc t).Fits := by
  have hf := hs.fits t
  cases hp : s.pc t <;> simp only [hp, advance] at h hf
  case idle => cases h
  case attempt want blocking =>
    split at h
    case h_1 => cases h; simp [LockPc.Fits]
    case h_2 => split_ifs at h <;> (try split at h) <;> cases h <;> rw [goto_self] <;> trivial
  case judge => split_ifs at h <;> cases h <;> rw [goto_self] <;> trivial
  case flock want nonblock releasedPrevious =>
    generalize (if releasedPrevious then _ else _) = locks at h
    split at h <;> cases h
    case isTrue => simp [LockPc.Fits]
    case isFalse => cases nonblock <;> simp [LockPc.Fits, LockWait.Fits]
  case recheck wait woken =>
    cases h
    rw [goto_self]
    split
    case isTrue => exact hf
    case isFalse => exact LockPc.Fits.retry hf
  case asleep wait _ =>
    split_ifs at h
    cases h
    rw [goto_self]
    exact LockPc.Fits.retry hf
  case release rest => cases rest <;> cases h <;> simp [LockPc.Fits]
  case wake wakes rest => cases wakes <;> cases h <;> simp [LockPc.Fits]
  all_goals cases h; rw [goto_self]; trivial

theorem step_fits (hs : s.Sound) (hf : act.Fits) (h : s.step t act = some s') : (s'.pc t).Fits := by
  cases act
  case start call =>
    simp only [step] at h
    split_ifs at h
    cases h
    rw [goto_self]
    exact LockCall.entry_fits hf
  case run => exact advance_fits hs h
  case interrupt err =>
    simp only [step] at h
    split at h
    case h_1 wait hp | h_2 wait _ hp | h_3 wait _ hp =>
      cases h
      cases wait <;> simp only [fail, goto_self] <;> (try split) <;> trivial
    case h_4 => cases h

theorem Sound.step (hs : s.Sound) (hf : act.Fits) (h : s.step t act = some s') : s'.Sound where
  records := by
    have ht := hs.fits t
    cases step_tables h
    case same hr _ => exact hr ▸ hs.records
    case unlock hp hr _ _ =>
      rw [hp] at ht
      exact hr ▸ hs.records.unlock ht
    case grant hp hr _ =>
      rw [hp] at ht
      exact (applyFileLock_ok hs.records ht hr).left
    case releaseRecords hr _ _ => exact hr ▸ hs.records.filter _
    case flock hr _ _ => exact hr ▸ hs.records
    case releaseWhole hr _ _ => exact hr ▸ hs.records
  fits t' := by
    by_cases hn : t' = t
    case pos => exact hn ▸ step_fits hs hf h
    case neg =>
      cases step_pc h
      case move hm _ _ => exact hm t' hn ▸ hs.fits t'
      case wake ho => exact ho t' hn ▸ (hs.fits t').wakeFor

-- A request conflicts with a lock if another owner holds one of its bytes in a kind that conflicts.
omit [DecidableEq τ] in
theorem conflicts_of_holds {want : FileRecordLock} (ho : owner ≠ want.owner) (hb : byte ∈ want.range.bytes)
    (hh : Holds s.records want.file owner byte kind) (hk : kind.conflict want.kind) : s.conflicts (.record want) := by
  by_contra hn
  have ⟨lock, hm, hf, ho', hb', hk'⟩ := hh
  have hn := findLockConflict_none (by simpa [conflicts] using hn) lock hm
  exact Set.disjoint_left.mp (not_conflicting_disjoint hn hf (ho' ▸ ho) (hk' ▸ hk)) hb' hb

omit [DecidableEq τ] in
theorem holds_of_conflicts {want : FileRecordLock} (hs : RecordsSound s.records) (hw : want.range.bytes.Nonempty)
    (h : s.conflicts (.record want)) : ∃ owner byte kind, owner ≠ want.owner ∧ byte ∈ want.range.bytes ∧
      Holds s.records want.file owner byte kind ∧ kind.conflict want.kind := by
  have ⟨lock, hl⟩ := Option.isSome_iff_exists.mp h
  have ⟨hm, hc⟩ := findLockConflict_mem hl
  have ⟨byte, hb, hb'⟩ := FileLockRange.exists_of_overlap (hs.wellFormed.nonempty lock hm) hw hc.overlap
  exact ⟨lock.owner, byte, lock.kind, hc.owner, hb', ⟨lock, hm, hc.file, rfl, hb, rfl⟩, hc.kind⟩

omit [DecidableEq τ] in
theorem step_conflicts_record {want : FileRecordLock} (hs : s.Sound) (hw : want.range.bytes.Nonempty)
    (ht : TableStep s s' t) (hc : s.conflicts (.record want)) :
    s'.conflicts (.record want) ∨ want.file ∈ (s'.pc t).owed ∨ s.Weakens want.file (s.pc t) := by
  have ⟨owner, byte, kind, ho, hb, hh, hk⟩ := holds_of_conflicts hs.records hw hc
  have hf := hs.fits t
  cases ht
  case same hr _ | flock hr _ _ | releaseWhole hr _ _ => exact .inl (conflicts_of_holds ho hb (hr ▸ hh) hk)
  case unlock file _ _ hp hr _ howed =>
    rw [hp] at hf
    by_cases he : want.file = file
    case pos => exact .inr (.inl (he ▸ howed))
    case neg => exact .inl (conflicts_of_holds ho hb (hr ▸ (applyFileUnlock_holds hf).mpr ⟨hh, fun h => he h.left⟩) hk)
  case grant granted blocking hp hr _ =>
    rw [hp] at hf
    have ⟨hs', hh'⟩ := applyFileLock_ok hs.records hf hr
    have hh' := hh' want.file owner byte
    split at hh'
    case isFalse =>
      rw [hs.records.wellFormed.holding_eq_some.mpr hh] at hh'
      exact .inl (conflicts_of_holds ho hb (hs'.wellFormed.holding_eq_some.mp hh') hk)
    case isTrue hg =>
      by_cases hk' : granted.kind.conflict want.kind
      case pos => exact .inl (conflicts_of_holds ho hb (hs'.wellFormed.holding_eq_some.mp hh') hk')
      case neg =>
        -- Only two locks for reading do not conflict, so the lock that the grant replaces is one for writing.
        have ⟨lock, hm, hlf, hlo, hlb, hlk⟩ := hh
        have hkinds : granted.kind = .read ∧ kind = .write := by
          revert hk hk'
          cases granted.kind <;> cases want.kind <;> cases kind <;> decide
        refine .inr (.inr ?_)
        rw [hp]
        refine ⟨hg.left.symm, ?_, hkinds.left, lock, hm, ?_, hlk.trans hkinds.right⟩
        case refine_1 => exact applyFileLock_no_conflict hr
        case refine_2 =>
          have hov := FileLockRange.overlap_of_mem hlb hg.right.right
          simp [FileRecordLock.affected, hlf, hlo, hg, hov]
  case releaseRecords gone hr _ howed =>
    have ⟨lock, hm, hlf, hlo, hlb, hlk⟩ := hh
    by_cases hg : gone lock
    case pos => exact .inr (.inl (hlf ▸ howed lock hm hg))
    case neg => exact .inl (conflicts_of_holds ho hb (hr ▸ ⟨lock, by simp [hm, hg], hlf, hlo, hlb, hlk⟩) hk)

omit [DecidableEq τ] in
theorem conflicts_wholeFile {want : WholeFileLock} : s.conflicts (.wholeFile want) ↔
    ∃ lock ∈ s.wholeFile, lock.file = want.file ∧ lock.owner ≠ want.owner ∧ lock.kind.conflict want.kind := by
  simp [conflicts, wholeFileLockConflicts, and_assoc]

omit [DecidableEq τ] in
theorem step_conflicts_wholeFile {want : WholeFileLock} (ht : TableStep s s' t) (hc : s.conflicts (.wholeFile want)) :
    s'.conflicts (.wholeFile want) ∨ want.file ∈ (s'.pc t).owed ∨ s.Weakens want.file (s.pc t) := by
  have ⟨lock, hm, hf, ho, hk⟩ := conflicts_wholeFile.mp hc
  cases ht
  case same hw | unlock hw _ | grant hw | releaseRecords hw _ =>
    exact .inl (conflicts_wholeFile.mpr ⟨lock, hw ▸ hm, hf, ho, hk⟩)
  case flock granted nonblock releasedPrevious hp hr hkept hw =>
    cases hkept lock hm
    case inl hm => exact .inl (conflicts_wholeFile.mpr ⟨lock, hm, hf, ho, hk⟩)
    case inr h =>
      have hl := h.right
      simp only [WholeFileLock.isOf, Bool.and_eq_true, decide_eq_true_eq] at hl
      have hweak (hc : s.conflicts (.wholeFile granted) ∨ granted.kind = .read ∧ lock.kind = .write) :
          s.Weakens want.file (s.pc t) := by
        rw [hp, h.left]
        exact ⟨hl.left.symm.trans hf, lock, hm, h.right, hc⟩
      cases hw
      case inr hw => exact .inr (.inr (hweak (.inl hw)))
      case inl hw =>
        by_cases hg : granted.kind.conflict want.kind
        case pos =>
          exact .inl (conflicts_wholeFile.mpr ⟨granted, hw, hl.left ▸ hf, fun he => ho (hl.right.trans he), hg⟩)
        case neg =>
          refine .inr (.inr (hweak (.inr ?_)))
          revert hg hk
          cases granted.kind <;> cases want.kind <;> cases lock.kind <;> decide
  case releaseWhole gone hr hw howed =>
    by_cases hg : gone lock
    case pos => exact .inr (.inl (hf ▸ howed lock hm hg))
    case neg => exact .inl (conflicts_wholeFile.mpr ⟨lock, by simp [hw, hm, hg], hf, ho, hk⟩)

theorem step_conflicts (hs : s.Sound) (hw : wait.Fits) (h : s.step t act = some s') (hc : s.conflicts wait) :
    s'.conflicts wait ∨ wait.file ∈ (s'.pc t).owed ∨ s.Weakens wait.file (s.pc t) := by
  cases wait
  case record => exact step_conflicts_record hs hw (step_tables h) hc
  case wholeFile => exact step_conflicts_wholeFile (step_tables h) hc

theorem Reachable.sound {p : LockSystem τ → τ → LockAct → Prop} (hp : ∀ s t act, p s t act → act.Fits)
    (h : Reachable p s) : s.Sound := by
  induction h
  case initial => exact .initial
  case step hs hpt h hi => exact hi.step (hp _ _ _ hpt) h

-- The step that makes the request of a sleeping task grantable owes it a wake.
theorem step_grants (hs : s.Sound) (hk : s.KeepsLocks t act) (h : s.step t act = some s')
    (ha : s.pc t' = .asleep wait false) (hc : s.conflicts wait) : s'.conflicts wait ∨ wait.file ∈ (s'.pc t).owed := by
  have hw : wait.Fits := by
    have := hs.fits t'
    rwa [ha] at this
  cases step_conflicts hs hw h hc
  case inl hc => exact .inl hc
  case inr hc =>
    cases hc
    case inl ho => exact .inr ho
    case inr hweak =>
      cases act
      case run => exact absurd rfl (hk.right _ rfl hweak _ _ ha)
      case start call =>
        simp only [step] at h
        split_ifs at h with hp
        exact absurd hweak (by rw [hp]; exact id)
      case interrupt err =>
        simp only [step] at h
        split at h
        case h_1 hp | h_2 hp | h_3 hp => exact absurd hweak (by rw [hp]; exact id)
        case h_4 => cases h

theorem Reachable.asleep (h : Reachable KeepsLocks s) :
    ∀ t wait, s.pc t = .asleep wait false → s.conflicts wait ∨ ∃ t', wait.file ∈ (s.pc t').owed := by
  induction h
  case initial => nofun
  case step s s' t act hr hk h hi =>
    have hs := hr.sound fun _ _ _ => And.left
    have hpc := step_pc h
    intro t₁ wait ha
    by_cases hn : t₁ = t
    case pos =>
      subst hn
      exact .inl (step_asleep h ha)
    case neg =>
      have ha' := hpc.asleep hn ha
      cases hi t₁ wait ha'
      case inl hc => exact (step_grants hs hk h ha' hc).imp_right fun ho => ⟨t, ho⟩
      case inr ho =>
        have ⟨t₂, ho⟩ := ho
        by_cases hn₂ : t₂ = t
        case neg => exact .inr ⟨t₂, hpc.owed_ne hn₂ ▸ ho⟩
        case pos =>
          cases hpc.owed (hn₂ ▸ ho)
          case inl ho => exact .inr ⟨t, ho⟩
          case inr hw => exact absurd rfl (hw t₁ wait ha)

-- No wake of a waiter for a file lock is lost in a run that weakens no lock while a task waits for its file.
theorem notified (h : Reachable KeepsLocks s) : s.Notified where
  asleep := h.asleep
  grants _ _ _ hk hstep _ _ ha hc hc' :=
    (step_grants (h.sound fun _ _ _ => And.left) hk hstep ha hc).resolve_left (by simp [hc'])
  owed _ _ _ _ hstep ho := (step_pc hstep).owed ho

def flockAct (operation : BitVec 64) (owner : Nat) : LockAct :=
  .start (.flock ⟨operation, some (.ext4Regular 5 0 0 true true owner), fun _ => none⟩)

-- Thread `false` locks a file for writing, and thread `true` waits to lock it for reading.
theorem notified_waiting : ∃ s : LockSystem Bool, s.pc true = .asleep (.wholeFile ⟨.ext4 5, 2, .read⟩) false ∧
    s.Notified := by
  have h : Reachable KeepsLocks _ :=
    .step .initial (by exact ⟨trivial, nofun⟩) (rfl : initial.step false (flockAct LOCK_EX 1) = some _)
  have h := h.step (by exact ⟨trivial, fun _ _ ⟨_, _, hm, _⟩ => by cases hm⟩) (rfl : step _ false .run = some _)
  have h := h.step (by exact ⟨trivial, nofun⟩) (rfl : step _ true (flockAct LOCK_SH 2) = some _)
  have h := h.step (by exact ⟨trivial, fun _ _ ⟨_, _, hm, hl, _⟩ => by cases List.mem_singleton.mp hm; cases hl⟩)
    (rfl : step _ true .run = some _)
  have h := h.step (by exact ⟨trivial, fun _ _ hw => by cases hw⟩) (rfl : step _ true .run = some _)
  have h := h.step (by exact ⟨trivial, fun _ _ hw => by cases hw⟩) (rfl : step _ true .run = some _)
  exact ⟨_, rfl, notified h⟩

theorem reachable_run {p : LockSystem τ → τ → LockAct → Prop} (hp : ∀ s t act, p s t act) (hs : Reachable p s)
    {steps : List (τ × LockAct)} (h : s.run steps = some s') : Reachable p s' := by
  induction steps generalizing s
  case nil => cases h; exact hs
  case cons step steps hi =>
    have ⟨_, hstep, hrun⟩ := Option.bind_eq_some_iff.mp h
    exact hi (hs.step (hp ..) hstep) hrun

-- The same, and thread `false` then turns its lock into one for reading. It wakes nobody.
def convertSteps : List (Bool × LockAct) :=
  [(false, flockAct LOCK_EX 1), (false, .run), (true, flockAct LOCK_SH 2), (true, .run), (true, .run), (true, .run),
    (false, flockAct LOCK_SH 1), (false, .run)]

theorem convertSteps_not_notified : ¬ ∀ s : LockSystem Bool, Reachable (fun _ _ _ => True) s → s.Notified := by
  intro h
  have hr : Reachable (fun _ _ _ => True) _ :=
    reachable_run (fun _ _ _ => trivial) .initial (rfl : initial.run convertSteps = some _)
  have hn := (h _ hr).asleep true (.wholeFile ⟨.ext4 5, 2, .read⟩) rfl
  cases hn
  case inl hc => cases hc
  case inr ho =>
    have ⟨t, ho⟩ := ho
    cases t <;> cases ho

end LockSystem

end WllOs
