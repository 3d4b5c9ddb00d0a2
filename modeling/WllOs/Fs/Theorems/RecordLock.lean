import WllOs.Library.Fallible
import WllOs.Fs.RecordLock

namespace WllOs

open Fallible

namespace FileLockRange

variable {left right old cut remainder : FileLockRange} {byte : Nat}

theorem mem_bytes : byte ∈ left.bytes ↔ left.start ≤ byte ∧ ∀ stop ∈ left.stop, byte < stop :=
  .rfl

theorem start_mem_bytes (h : left.bytes.Nonempty) : left.start ∈ left.bytes := by
  have ⟨_, hb, hs⟩ := h
  exact ⟨Nat.le_refl _, fun stop h => Nat.lt_of_le_of_lt hb (hs stop h)⟩

theorem disjoint_of_not_overlap (h : left.overlap right = false) : Disjoint left.bytes right.bytes := by
  refine Set.disjoint_left.mpr fun byte hl hr => ?_
  rw [mem_bytes] at hl hr
  simp only [overlap, Bool.and_eq_false_iff, Bool.not_eq_false', Option.any_eq_true, decide_eq_true_eq] at h
  cases h
  case inl h => obtain ⟨stop, hs, h⟩ := h; have := hl.right stop hs; omega
  case inr h => obtain ⟨stop, hs, h⟩ := h; have := hr.right stop hs; omega

theorem overlap_of_mem (hl : byte ∈ left.bytes) (hr : byte ∈ right.bytes) : left.overlap right := by
  by_contra hn
  exact Set.disjoint_left.mp (disjoint_of_not_overlap (by simpa using hn)) hl hr

theorem exists_of_overlap (hl : left.bytes.Nonempty) (hr : right.bytes.Nonempty) (h : left.overlap right) :
    ∃ byte ∈ left.bytes, byte ∈ right.bytes := by
  have hl := (start_mem_bytes hl).right
  have hr := (start_mem_bytes hr).right
  simp only [overlap, Bool.and_eq_true, Bool.not_eq_true', Option.any_eq_false, decide_eq_false_iff_not, not_le] at h
  refine ⟨max left.start right.start, ⟨Nat.le_max_left .., ?_⟩, Nat.le_max_right .., ?_⟩
  · exact fun stop hs => Nat.max_lt.mpr ⟨hl stop hs, h.left stop hs⟩
  · exact fun stop hs => Nat.max_lt.mpr ⟨h.right stop hs, hr stop hs⟩

-- The source only cuts a range that the cut overlaps.
theorem subtract_bytes (hn : cut.bytes.Nonempty) (h : old.overlap cut) :
    (∃ remainder ∈ old.subtract cut, byte ∈ remainder.bytes) ↔ byte ∈ old.bytes ∧ byte ∉ cut.bytes := by
  have hc := (start_mem_bytes hn).right
  have ⟨oldStart, oldStop⟩ := old
  have ⟨cutStart, cutStop⟩ := cut
  simp only [subtract, List.mem_append, mem_leftRemainder, mem_rightRemainder, mem_bytes, or_and_right, exists_or,
    and_assoc, exists_and_left, exists_eq_left, overlap] at *
  cases oldStop <;> cases cutStop <;> simp at h hc ⊢ <;> grind

theorem merge_bytes (hl : left.bytes.Nonempty) (hr : right.bytes.Nonempty) (h : left.touchOrOverlap right) :
    (left.merge right).bytes = left.bytes ∪ right.bytes := by
  have hl := (start_mem_bytes hl).right
  have hr := (start_mem_bytes hr).right
  have ⟨leftStart, leftStop⟩ := left
  have ⟨rightStart, rightStop⟩ := right
  ext byte
  simp only [Set.mem_union, mem_bytes, merge, touchOrOverlap] at *
  cases leftStop <;> cases rightStop <;> simp at h hl hr ⊢ <;> omega

-- The two parts of a range that a cut leaves do not even meet.
theorem subtract_apart (h : cut.bytes.Nonempty) : (old.subtract cut).Pairwise fun left right =>
    ∀ byte ∈ left.bytes, ∀ other ∈ right.bytes, byte + 1 < other := by
  have hc := (start_mem_bytes h).right
  refine List.pairwise_append.mpr ⟨?_, ?_, ?_⟩
  case refine_1 => unfold leftRemainder; dsimp only; split <;> simp
  case refine_2 =>
    unfold rightRemainder
    cases cut.stop
    case none => simp
    case some stop => dsimp only; split <;> simp
  case refine_3 =>
    intro left hl right hr byte hb other ho
    have ⟨_, hl⟩ := mem_leftRemainder.mp hl
    have ⟨stop, hs, _, hr⟩ := mem_rightRemainder.mp hr
    subst hl hr
    have := hb.right _ rfl
    have := hc _ hs
    have := (Nat.le_max_left ..).trans ho.left
    omega

theorem nonempty_of_mem_subtract (ho : old.bytes.Nonempty) (h : remainder ∈ old.subtract cut) :
    remainder.bytes.Nonempty := by
  have ho := (start_mem_bytes ho).right
  rw [subtract, List.mem_append, mem_leftRemainder, mem_rightRemainder] at h
  refine ⟨remainder.start, Nat.le_refl _, fun stop hs => ?_⟩
  cases h
  case inl h =>
    obtain ⟨hlt, he⟩ := h
    subst he
    cases hs
    exact hlt
  case inr h =>
    obtain ⟨_, _, hlt, he⟩ := h
    subst he
    exact Nat.max_lt.mpr (hlt stop hs)

theorem apart_of_not_touch (h : left.touchOrOverlap right = false) :
    (byte ∈ left.bytes → byte + 1 ∉ right.bytes) ∧ (byte ∈ right.bytes → byte + 1 ∉ left.bytes) := by
  simp only [touchOrOverlap, Bool.and_eq_false_iff, Bool.not_eq_false', Option.any_eq_true, decide_eq_true_eq] at h
  cases h
  case inl h =>
    have ⟨stop, hs, hlt⟩ := h
    refine ⟨fun hl hr => ?_, fun hr hl => ?_⟩
    · have := hl.right stop hs; have := hr.left; omega
    · have := hl.right stop hs; have := hr.left; omega
  case inr h =>
    have ⟨stop, hs, hlt⟩ := h
    refine ⟨fun hl hr => ?_, fun hr hl => ?_⟩
    · have := hr.right stop hs; have := hl.left; omega
    · have := hr.right stop hs; have := hl.left; omega

theorem touchOrOverlap_comm : left.touchOrOverlap right = right.touchOrOverlap left := by
  simp only [touchOrOverlap]
  exact Bool.and_comm ..

end FileLockRange

theorem RecordsApart.symm {left right : FileRecordLock} (h : RecordsApart left right) : RecordsApart right left :=
  ⟨h.disjoint.symm, fun he byte => (h.apart he.symm byte).symm⟩

-- Records of parts of the two ranges.
theorem RecordsApart.mono {left right left' right' : FileRecordLock} (h : RecordsApart left right)
    (hl : left'.range.bytes ⊆ left.range.bytes) (hr : right'.range.bytes ⊆ right.range.bytes)
    (hk : left'.kind = left.kind) (hk' : right'.kind = right.kind) : RecordsApart left' right' where
  disjoint := h.disjoint.mono hl hr
  apart he byte := by
    have h := h.apart (by rw [← hk, he, hk']) byte
    exact ⟨fun hb ho => h.left (hl hb) (hr ho), fun hb ho => h.right (hr hb) (hl ho)⟩

variable {locks locks' : List FileRecordLock} {file file' : FileLockKey} {owner owner' : FileLockOwner} {byte : Nat}
  {kind kind' : FileLockKind} {range : FileLockRange} {pid : Nat}

namespace RecordsWellFormed

theorem apart_of_ne {left right : FileRecordLock} (wf : RecordsWellFormed locks) (hl : left ∈ locks)
    (hr : right ∈ locks) (hn : left ≠ right) (hf : left.file = right.file) (ho : left.owner = right.owner) :
    RecordsApart left right := by
  have : Std.Symm fun left right : FileRecordLock =>
      left.file = right.file → left.owner = right.owner → RecordsApart left right :=
    ⟨fun _ _ h hf ho => (h hf.symm ho.symm).symm⟩
  exact wf.apart.forall hl hr hn hf ho

-- Two records that cover the same byte for the same owner are the same record.
theorem unique {left right : FileRecordLock} (wf : RecordsWellFormed locks) (hl : left ∈ locks) (hr : right ∈ locks)
    (hf : left.file = right.file) (ho : left.owner = right.owner) (hb : byte ∈ left.range.bytes)
    (hb' : byte ∈ right.range.bytes) : left = right := by
  by_contra hn
  exact Set.disjoint_left.mp (wf.apart_of_ne hl hr hn hf ho).disjoint hb hb'

theorem holding_eq_some (wf : RecordsWellFormed locks) :
    holding locks file owner byte = some kind ↔ Holds locks file owner byte kind := by
  simp only [holding, Option.map_eq_some_iff]
  constructor
  case mp =>
    intro ⟨lock, hl, hk⟩
    have hm := List.mem_of_find?_eq_some hl
    have hp := List.find?_some hl
    simp only [Bool.and_eq_true, decide_eq_true_eq] at hp
    exact ⟨lock, hm, hp.left.left, hp.left.right, hp.right, hk⟩
  case mpr =>
    intro ⟨lock, hm, hf, ho, hb, hk⟩
    cases he : locks.find? fun lock => lock.file = file && lock.owner = owner && byte ∈ lock.range.bytes
    case none =>
      have := List.find?_eq_none.mp he lock hm
      simp [hf, ho, hb] at this
    case some other =>
      have hp := List.find?_some he
      simp only [Bool.and_eq_true, decide_eq_true_eq] at hp
      have := wf.unique (List.mem_of_find?_eq_some he) hm (hp.left.left.trans hf.symm) (hp.left.right.trans ho.symm)
        hp.right hb
      exact ⟨other, rfl, this ▸ hk⟩

theorem sublist (wf : RecordsWellFormed locks) (h : locks'.Sublist locks) : RecordsWellFormed locks' where
  nonempty lock hl := wf.nonempty lock (h.subset hl)
  apart := wf.apart.sublist h

end RecordsWellFormed

theorem applyFileUnlock_go_eq (seen : List FileRecordLock) :
    applyFileUnlock.go file owner range seen locks =
      seen ++ locks.filter (!·.affected file owner range) ++
        (locks.filter (·.affected file owner range)).flatMap (·.remainders range) := by
  fun_induction applyFileUnlock.go file owner range seen locks
  case case1 => simp
  case case2 seen lock locks ha hi =>
    have hr : (lock.remainders range).countP (·.affected file owner range) = 0 := lock.countP_remainders
    rw [List.countP_eq_zero] at hr
    have hk : (lock.remainders range).filter (!·.affected file owner range) = lock.remainders range :=
      List.filter_eq_self.mpr fun remainder h => by simpa using hr remainder h
    have hn : (lock.remainders range).filter (·.affected file owner range) = [] :=
      List.filter_eq_nil_iff.mpr hr
    rw [hi]
    simp [ha, hk, hn]
  case case3 seen lock locks ha hi =>
    rw [hi]
    simp [ha]

-- The loop keeps the locks that the range does not affect, and what is left of the others.
theorem applyFileUnlock_eq : applyFileUnlock file owner range locks =
    locks.filter (!·.affected file owner range) ++
      (locks.filter (·.affected file owner range)).flatMap (·.remainders range) := by
  exact applyFileUnlock_go_eq []

-- A cut takes its bytes from its owner, and nothing else.
theorem applyFileUnlock_holds (hr : range.bytes.Nonempty) :
    Holds (applyFileUnlock file owner range locks) file' owner' byte kind ↔
      Holds locks file' owner' byte kind ∧ ¬(file' = file ∧ owner' = owner ∧ byte ∈ range.bytes) := by
  simp only [applyFileUnlock_eq, Holds, List.mem_append, List.mem_filter, List.mem_flatMap]
  constructor
  case mp =>
    rintro ⟨lock, hm, hf, ho, hb, hk⟩
    cases hm
    case inl hm =>
      refine ⟨⟨lock, hm.left, hf, ho, hb, hk⟩, fun h => ?_⟩
      obtain ⟨he, he', hc⟩ := h
      have hn : lock.range.overlap range = false := by
        simpa [FileRecordLock.affected, hf, ho, he, he'] using hm.right
      exact Set.disjoint_left.mp (FileLockRange.disjoint_of_not_overlap hn) hb hc
    case inr hm =>
      obtain ⟨old, ⟨hold, ha⟩, hl⟩ := hm
      obtain ⟨remainder, hs, he⟩ := List.mem_map.mp hl
      subst he
      have hc := ha
      simp only [FileRecordLock.affected, Bool.and_eq_true] at hc
      obtain ⟨hb, hn⟩ := (FileLockRange.subtract_bytes hr hc.right).mp ⟨remainder, hs, hb⟩
      exact ⟨⟨old, hold, hf, ho, hb, hk⟩, fun h => hn h.right.right⟩
  case mpr =>
    rintro ⟨⟨lock, hm, hf, ho, hb, hk⟩, hn⟩
    by_cases ha : lock.affected file owner range
    case neg => exact ⟨lock, .inl ⟨hm, by simpa using ha⟩, hf, ho, hb, hk⟩
    case pos =>
      have hc := ha
      simp only [FileRecordLock.affected, Bool.and_eq_true, decide_eq_true_eq] at hc
      have hc' : byte ∉ range.bytes :=
        fun h => hn ⟨hf.symm.trans hc.left.left, ho.symm.trans hc.left.right, h⟩
      obtain ⟨remainder, hs, hb⟩ := (FileLockRange.subtract_bytes hr hc.right).mpr ⟨hb, hc'⟩
      exact ⟨{ lock with range := remainder }, .inr ⟨lock, ⟨hm, ha⟩, List.mem_map.mpr ⟨_, hs, rfl⟩⟩, hf, ho, hb, hk⟩

theorem subset_of_mem_remainders {lock remainder : FileRecordLock} (hr : range.bytes.Nonempty)
    (ha : lock.affected file owner range) (h : remainder ∈ lock.remainders range) :
    remainder.range.bytes ⊆ lock.range.bytes := by
  have ⟨left, hl, he⟩ := List.mem_map.mp h
  subst he
  simp only [FileRecordLock.affected, Bool.and_eq_true] at ha
  exact fun _ hb => ((FileLockRange.subtract_bytes hr ha.right).mp ⟨left, hl, hb⟩).left

theorem mem_remainders_eq {lock remainder : FileRecordLock} (h : remainder ∈ lock.remainders range) :
    remainder = { lock with range := remainder.range } := by
  have ⟨_, _, he⟩ := List.mem_map.mp h
  rw [← he]

theorem remainders_apart (lock : FileRecordLock) (hr : range.bytes.Nonempty) :
    (lock.remainders range).Pairwise RecordsApart := by
  refine List.pairwise_map.mpr <| (FileLockRange.subtract_apart hr).imp fun h => ⟨?_, fun _ byte => ⟨?_, ?_⟩⟩
  · exact Set.disjoint_left.mpr fun byte hl hr => by have := h byte hl byte hr; omega
  · exact fun hl hr => by have := h byte hl _ hr; omega
  · exact fun hr hl => by have := h _ hl byte hr; omega

theorem applyFileUnlock_wellFormed (wf : RecordsWellFormed locks) (hr : range.bytes.Nonempty) :
    RecordsWellFormed (applyFileUnlock file owner range locks) := by
  rw [applyFileUnlock_eq]
  constructor
  case nonempty =>
    intro lock hm
    simp only [List.mem_append, List.mem_filter, List.mem_flatMap] at hm
    obtain ⟨hm, _⟩ | ⟨old, ⟨hm, _⟩, hl⟩ := hm
    case inl => exact wf.nonempty lock hm
    case inr =>
      have ⟨remainder, hs, he⟩ := List.mem_map.mp hl
      subst he
      exact FileLockRange.nonempty_of_mem_subtract (wf.nonempty old hm) hs
  case apart =>
    refine List.pairwise_append.mpr ⟨wf.apart.sublist List.filter_sublist, ?_, ?_⟩
    case refine_1 =>
      refine List.pairwise_flatMap.mpr ⟨fun lock _ => ?_, ?_⟩
      · exact (remainders_apart lock hr).imp fun h _ _ => h
      · refine (wf.apart.sublist List.filter_sublist).imp_of_mem fun hl hl' h left hm right hm' hf ho => ?_
        have he := mem_remainders_eq hm
        have he' := mem_remainders_eq hm'
        rw [he, he'] at hf ho
        exact (h hf ho).mono (subset_of_mem_remainders hr (List.mem_filter.mp hl).right hm)
          (subset_of_mem_remainders hr (List.mem_filter.mp hl').right hm') (by rw [he]) (by rw [he'])
    case refine_2 =>
      intro lock hl right hm hf ho
      have ⟨old, ho', hm⟩ := List.mem_flatMap.mp hm
      have ⟨hl, hn⟩ := List.mem_filter.mp hl
      have ⟨ho', ha⟩ := List.mem_filter.mp ho'
      have he := mem_remainders_eq hm
      have hne : lock ≠ old := fun h => by simp [h, ha] at hn
      rw [he] at hf ho
      exact (wf.apart_of_ne hl ho' hne hf ho).mono subset_rfl (subset_of_mem_remainders hr ha hm) rfl (by rw [he])

namespace FileRecordLock

variable {lock newLock other : FileRecordLock}

theorem mergeable_iff : lock.mergeable newLock ↔ lock.file = newLock.file ∧ lock.owner = newLock.owner ∧
    lock.kind = newLock.kind ∧ lock.range.touchOrOverlap newLock.range := by
  simp [mergeable, and_assoc]

@[simp]
theorem absorb_file : (newLock.absorb lock).file = newLock.file :=
  rfl

@[simp]
theorem absorb_owner : (newLock.absorb lock).owner = newLock.owner :=
  rfl

@[simp]
theorem absorb_kind : (newLock.absorb lock).kind = newLock.kind :=
  rfl

theorem absorb_bytes (hn : newLock.range.bytes.Nonempty) (hl : lock.range.bytes.Nonempty)
    (h : lock.mergeable newLock) : (newLock.absorb lock).range.bytes = newLock.range.bytes ∪ lock.range.bytes := by
  have h := (mergeable_iff.mp h).right.right.right
  rw [FileLockRange.touchOrOverlap_comm] at h
  exact FileLockRange.merge_bytes hn hl h

end FileRecordLock

theorem holds_append : Holds (locks ++ locks') file owner byte kind ↔
    Holds locks file owner byte kind ∨ Holds locks' file owner byte kind := by
  simp [Holds, or_and_right, exists_or]

theorem holds_absorb {newLock lock : FileRecordLock} (hn : newLock.range.bytes.Nonempty)
    (hl : lock.range.bytes.Nonempty) (h : lock.mergeable newLock) :
    Holds [newLock.absorb lock] file owner byte kind ↔
      Holds [newLock] file owner byte kind ∨ Holds [lock] file owner byte kind := by
  have ⟨hf, ho, hk, _⟩ := FileRecordLock.mergeable_iff.mp h
  have hb := FileRecordLock.absorb_bytes hn hl h
  simp only [Holds, List.mem_singleton, exists_eq_left, hb, hf, ho, hk, Set.mem_union, FileRecordLock.absorb_file,
    FileRecordLock.absorb_owner, FileRecordLock.absorb_kind]
  tauto

-- The new lock gets its bytes, and nothing else changes.
theorem pushMergedFileLock_go_holds {seen : List FileRecordLock} {newLock : FileRecordLock}
    (hn : newLock.range.bytes.Nonempty) (hl : ∀ lock ∈ locks, lock.range.bytes.Nonempty) :
    Holds (pushMergedFileLock.go seen locks newLock) file owner byte kind ↔
      Holds (seen ++ locks) file owner byte kind ∨ Holds [newLock] file owner byte kind := by
  induction locks generalizing seen newLock
  case nil => rw [List.append_nil, ← holds_append]; rfl
  case cons lock locks hi =>
    have hl := List.forall_mem_cons.mp hl
    simp only [pushMergedFileLock.go]
    split
    case isTrue h =>
      rw [hi (FileRecordLock.absorb_bytes hn hl.left h ▸ hn.inl) hl.right, holds_absorb hn hl.left h,
        List.append_cons, holds_append, holds_append, holds_append]
      tauto
    case isFalse => rw [hi hn hl.right, List.append_assoc]; rfl

theorem pushMergedFileLock_holds {newLock : FileRecordLock} (hn : newLock.range.bytes.Nonempty)
    (hl : ∀ lock ∈ locks, lock.range.bytes.Nonempty) :
    Holds (pushMergedFileLock locks newLock) file owner byte kind ↔
      Holds locks file owner byte kind ∨ Holds [newLock] file owner byte kind :=
  pushMergedFileLock_go_holds hn hl

theorem RecordsApart.absorb {newLock lock other : FileRecordLock} (h : RecordsApart other newLock)
    (h' : RecordsApart other lock) (hk : lock.kind = newLock.kind)
    (hb : (newLock.absorb lock).range.bytes = newLock.range.bytes ∪ lock.range.bytes) :
    RecordsApart other (newLock.absorb lock) where
  disjoint := hb ▸ Set.disjoint_union_right.mpr ⟨h.disjoint, h'.disjoint⟩
  apart he byte := by
    have h := h.apart he byte
    have h' := h'.apart (he.trans hk.symm) byte
    simp only [hb, Set.mem_union]
    tauto

theorem recordsApart_of_not_mergeable {lock newLock : FileRecordLock} (hf : lock.file = newLock.file)
    (ho : lock.owner = newLock.owner) (hd : Disjoint lock.range.bytes newLock.range.bytes)
    (h : ¬lock.mergeable newLock) : RecordsApart lock newLock where
  disjoint := hd
  apart hk byte := by
    refine FileLockRange.apart_of_not_touch ?_
    simpa [FileRecordLock.mergeable, hf, ho, hk] using h

theorem pushMergedFileLock_go_wellFormed {seen : List FileRecordLock} {newLock : FileRecordLock}
    (wf : RecordsWellFormed (seen ++ locks)) (hn : newLock.range.bytes.Nonempty)
    (hs : ∀ lock ∈ seen, lock.file = newLock.file → lock.owner = newLock.owner → RecordsApart lock newLock)
    (hl : ∀ lock ∈ locks, lock.file = newLock.file → lock.owner = newLock.owner →
      Disjoint lock.range.bytes newLock.range.bytes) :
    RecordsWellFormed (pushMergedFileLock.go seen locks newLock) := by
  induction locks generalizing seen newLock
  case nil =>
    simp only [pushMergedFileLock.go]
    rw [List.append_nil] at wf
    constructor
    case nonempty => simpa [or_imp, forall_and, hn] using wf.nonempty
    case apart =>
      refine List.pairwise_append.mpr ⟨wf.apart, List.pairwise_singleton .., fun lock hm right hr => ?_⟩
      rw [List.mem_singleton.mp hr]
      exact hs lock hm
  case cons lock locks hi =>
    have hl := List.forall_mem_cons.mp hl
    have hne := wf.nonempty lock (by simp)
    simp only [pushMergedFileLock.go]
    split
    case isTrue h =>
      have hb := FileRecordLock.absorb_bytes hn hne h
      have hm := FileRecordLock.mergeable_iff.mp h
      -- A record that was apart from the new lock, and from the one that it takes in, is apart from both together.
      refine hi (wf.sublist (by simp)) (hb ▸ hn.inl) ?_ ?_
      case refine_1 =>
        intro other ho hf ho'
        have ha := (List.pairwise_append.mp wf.apart).right.right other ho lock (by simp)
        exact (hs other ho hf ho').absorb (ha (hf.trans hm.left.symm) (ho'.trans hm.right.left.symm)) hm.right.right.left hb
      case refine_2 =>
        intro other ho hf ho'
        have ha := (List.pairwise_cons.mp (List.pairwise_append.mp wf.apart).right.left).left other ho
        have ha := ha (hm.left.trans hf.symm) (hm.right.left.trans ho'.symm)
        exact hb ▸ Set.disjoint_union_right.mpr ⟨hl.right other ho hf ho', ha.disjoint.symm⟩
    case isFalse h =>
      refine hi (by simpa using wf) hn ?_ hl.right
      intro other ho hf ho'
      cases List.mem_append.mp ho
      case inl ho => exact hs other ho hf ho'
      case inr ho =>
        cases List.mem_singleton.mp ho
        exact recordsApart_of_not_mergeable hf ho' (hl.left hf ho') h

theorem pushMergedFileLock_wellFormed {newLock : FileRecordLock} (wf : RecordsWellFormed locks)
    (hn : newLock.range.bytes.Nonempty) (hl : ∀ lock ∈ locks, lock.file = newLock.file → lock.owner = newLock.owner →
      Disjoint lock.range.bytes newLock.range.bytes) : RecordsWellFormed (pushMergedFileLock locks newLock) :=
  pushMergedFileLock_go_wellFormed wf hn nofun hl

-- What a search for a conflict looks for.
structure Conflicting (file : FileLockKey) (owner : FileLockOwner) (kind : FileLockKind) (range : FileLockRange)
    (lock : FileRecordLock) : Prop where
  file : lock.file = file
  owner : lock.owner ≠ owner
  kind : lock.kind.conflict kind
  overlap : lock.range.overlap range

theorem conflictStart_eq_none {lock : FileRecordLock} :
    lock.conflictStart file owner kind range = none ↔ ¬Conflicting file owner kind range lock := by
  have hc : Conflicting file owner kind range lock ↔
      lock.file = file ∧ lock.owner ≠ owner ∧ lock.kind.conflict kind ∧ lock.range.overlap range :=
    ⟨fun h => ⟨h.file, h.owner, h.kind, h.overlap⟩, fun ⟨hf, ho, hk, hr⟩ => ⟨hf, ho, hk, hr⟩⟩
  rw [hc]
  simp only [FileRecordLock.conflictStart, FileLockRange.overlapStart]
  split_ifs <;> grind

theorem findLockConflict_go_mem {best : Option (Nat × FileRecordLock)} {found : Nat × FileRecordLock}
    (h : findLockConflict.go file owner kind range locks best = some found) :
    best = some found ∨ found.snd ∈ locks ∧ Conflicting file owner kind range found.snd := by
  induction locks generalizing best
  case nil => exact .inl h
  case cons lock locks hi =>
    simp only [findLockConflict.go] at h
    cases hc : lock.conflictStart file owner kind range
    case none =>
      simp only [hc] at h
      exact (hi h).imp_right fun h => ⟨List.mem_cons_of_mem _ h.left, h.right⟩
    case some start =>
      simp only [hc] at h
      cases hi h
      case inr h => exact .inr ⟨List.mem_cons_of_mem _ h.left, h.right⟩
      case inl h =>
        split at h
        case isFalse => exact .inl h
        case isTrue =>
          cases h
          refine .inr ⟨List.mem_cons_self, ?_⟩
          by_contra hn
          rw [conflictStart_eq_none.mpr hn] at hc
          cases hc

theorem findLockConflict_go_none {best : Option (Nat × FileRecordLock)}
    (h : findLockConflict.go file owner kind range locks best = none) :
    best = none ∧ ∀ lock ∈ locks, ¬Conflicting file owner kind range lock := by
  induction locks generalizing best
  case nil => exact ⟨h, nofun⟩
  case cons lock locks hi =>
    simp only [findLockConflict.go] at h
    cases hc : lock.conflictStart file owner kind range
    case none =>
      simp only [hc] at h
      exact ⟨(hi h).left, List.forall_mem_cons.mpr ⟨conflictStart_eq_none.mp hc, (hi h).right⟩⟩
    case some start =>
      simp only [hc] at h
      have he := (hi h).left
      split at he
      case isTrue => cases he
      case isFalse hr => simp [he] at hr

theorem findLockConflict_mem {conflict : FileRecordLock}
    (h : findLockConflict locks file owner kind range = some conflict) :
    conflict ∈ locks ∧ Conflicting file owner kind range conflict := by
  have ⟨found, hf, he⟩ := Option.map_eq_some_iff.mp h
  cases findLockConflict_go_mem hf
  case inl h => cases h
  case inr h => exact he ▸ h

theorem findLockConflict_none (h : findLockConflict locks file owner kind range = none) :
    ∀ lock ∈ locks, ¬Conflicting file owner kind range lock :=
  (findLockConflict_go_none (Option.map_eq_none_iff.mp h)).right

-- No byte is locked by two owners in kinds that conflict.
def Compatible (locks : List FileRecordLock) : Prop :=
  ∀ file owner other byte kind kind', owner ≠ other → Holds locks file owner byte kind →
    Holds locks file other byte kind' → kind.conflict kind' = false

theorem Compatible.mono (h : Compatible locks)
    (hs : ∀ file owner byte kind, Holds locks' file owner byte kind → Holds locks file owner byte kind) :
    Compatible locks' :=
  fun _ _ _ _ _ _ hn hl hr => h _ _ _ _ _ _ hn (hs _ _ _ _ hl) (hs _ _ _ _ hr)

theorem Compatible.exclusive (h : Compatible locks) (wf : RecordsWellFormed locks) : RecordLocksExclusive locks := by
  intro file owner other byte hn hw
  cases ho : holding locks file other byte
  case none => rfl
  case some kind =>
    have := h _ _ _ _ _ _ hn (wf.holding_eq_some.mp hw) (wf.holding_eq_some.mp ho)
    cases this

-- What is true of the table between two steps.
structure RecordsSound (locks : List FileRecordLock) : Prop where
  wellFormed : RecordsWellFormed locks
  compatible : Compatible locks

theorem RecordsSound.nil : RecordsSound [] :=
  ⟨⟨nofun, .nil⟩, fun _ _ _ _ _ _ _ ⟨_, hl, _⟩ => nomatch hl⟩

theorem RecordsSound.filter (h : RecordsSound locks) (keep : FileRecordLock → Bool) :
    RecordsSound (locks.filter keep) where
  wellFormed := h.wellFormed.sublist List.filter_sublist
  compatible := h.compatible.mono fun _ _ _ _ ⟨lock, hl, h⟩ => ⟨lock, (List.mem_filter.mp hl).left, h⟩

theorem RecordsSound.unlock (h : RecordsSound locks) (hr : range.bytes.Nonempty) :
    RecordsSound (applyFileUnlock file owner range locks) where
  wellFormed := applyFileUnlock_wellFormed h.wellFormed hr
  compatible := h.compatible.mono fun _ _ _ _ h => ((applyFileUnlock_holds hr).mp h).left

theorem not_conflicting_disjoint {lock : FileRecordLock} (h : ¬Conflicting file owner kind range lock)
    (hf : lock.file = file) (ho : lock.owner ≠ owner) (hk : lock.kind.conflict kind) :
    Disjoint lock.range.bytes range.bytes := by
  refine FileLockRange.disjoint_of_not_overlap ?_
  by_contra hn
  exact h ⟨hf, ho, hk, by simpa using hn⟩

theorem conflict_comm : kind.conflict kind' = kind'.conflict kind := by
  cases kind <;> cases kind' <;> rfl

theorem holds_singleton {lock : FileRecordLock} : Holds [lock] file owner byte kind ↔
    lock.file = file ∧ lock.owner = owner ∧ byte ∈ lock.range.bytes ∧ lock.kind = kind := by
  simp [Holds]

-- A lock that conflicts with no lock of another owner.
theorem RecordsSound.push (h : RecordsSound locks) {newLock : FileRecordLock} (hn : newLock.range.bytes.Nonempty)
    (hs : ∀ lock ∈ locks, lock.file = newLock.file → lock.owner = newLock.owner →
      Disjoint lock.range.bytes newLock.range.bytes)
    (hc : ∀ lock ∈ locks, lock.file = newLock.file → lock.owner ≠ newLock.owner → lock.kind.conflict newLock.kind →
      Disjoint lock.range.bytes newLock.range.bytes) :
    RecordsSound (pushMergedFileLock locks newLock) where
  wellFormed := pushMergedFileLock_wellFormed h.wellFormed hn hs
  compatible := by
    have key : ∀ file owner byte kind kind', owner ≠ newLock.owner → Holds locks file owner byte kind →
        Holds [newLock] file newLock.owner byte kind' → kind.conflict kind' = false := by
      intro file owner byte kind kind' ho ⟨lock, hl, hf, ho', hb, hk⟩ hn
      have ⟨hf', _, hb', hk'⟩ := holds_singleton.mp hn
      by_contra hcon
      have hd := hc lock hl (hf.trans hf'.symm) (ho' ▸ ho) (by simpa [hk, hk'] using hcon)
      exact Set.disjoint_left.mp hd hb hb'
    intro file owner other byte kind kind' hne hl hr
    rw [pushMergedFileLock_holds hn h.wellFormed.nonempty] at hl hr
    cases hl
    case inl hl =>
      cases hr
      case inl hr => exact h.compatible _ _ _ _ _ _ hne hl hr
      case inr hr =>
        have ho := (holds_singleton.mp hr).right.left
        exact key _ _ _ _ _ (ho ▸ hne) hl (ho ▸ hr)
    case inr hl =>
      have ho := (holds_singleton.mp hl).right.left
      cases hr
      case inl hr => exact conflict_comm.trans (key _ _ _ _ _ (ho ▸ hne.symm) hr (ho ▸ hl))
      case inr hr => exact absurd (ho.symm.trans (holds_singleton.mp hr).right.left) hne

-- A lock that is granted sets the bytes of its range for its owner, and nothing else; so does a request to unlock.
theorem applyFileLock_ok {request : Option FileLockKind} (h : RecordsSound locks) (hr : range.bytes.Nonempty)
    (ha : applyFileLock locks file owner pid request range = .ok locks') :
    RecordsSound locks' ∧ ∀ file' owner' byte, holding locks' file' owner' byte =
      if file' = file ∧ owner' = owner ∧ byte ∈ range.bytes then request else holding locks file' owner' byte := by
  have hu : RecordsSound (applyFileUnlock file owner range locks) := h.unlock hr
  cases request
  case none =>
    cases ha
    refine ⟨hu, fun file' owner' byte => Option.ext fun kind => ?_⟩
    rw [hu.wellFormed.holding_eq_some, applyFileUnlock_holds hr]
    split
    case isTrue hc => simp [hc]
    case isFalse hc => simp [hc, h.wellFormed.holding_eq_some]
  case some kind =>
    simp only [applyFileLock] at ha
    split at ha
    case h_1 => cases ha
    case h_2 hc =>
      cases ha
      have hc := findLockConflict_none hc
      have hl : ∀ lock ∈ applyFileUnlock file owner range locks, ∀ byte ∈ lock.range.bytes,
          Holds (applyFileUnlock file owner range locks) lock.file lock.owner byte lock.kind :=
        fun lock hl _ hb => ⟨lock, hl, rfl, rfl, hb, rfl⟩
      have hs : RecordsSound (pushMergedFileLock (applyFileUnlock file owner range locks)
          ⟨file, owner, pid, kind, range⟩) := by
        refine hu.push hr ?_ ?_
        case refine_1 =>
          refine fun lock hm hf ho => Set.disjoint_left.mpr fun byte hb hb' => ?_
          exact ((applyFileUnlock_holds hr).mp (hl lock hm byte hb)).right ⟨hf, ho, hb'⟩
        case refine_2 =>
          refine fun lock hm hf ho hk => Set.disjoint_left.mpr fun byte hb hb' => ?_
          have ⟨old, hm, hf', ho', hb, hk'⟩ := ((applyFileUnlock_holds hr).mp (hl lock hm byte hb)).left
          have hd := not_conflicting_disjoint (hc old hm) (hf'.trans hf) (ho' ▸ ho) (hk' ▸ hk)
          exact Set.disjoint_left.mp hd hb hb'
      refine ⟨hs, fun file' owner' byte => Option.ext fun kind' => ?_⟩
      rw [hs.wellFormed.holding_eq_some, pushMergedFileLock_holds hr hu.wellFormed.nonempty, applyFileUnlock_holds hr,
        holds_singleton]
      split
      case isTrue hc => simp [hc]
      case isFalse hc =>
        rw [h.wellFormed.holding_eq_some]
        have : ¬(file = file' ∧ owner = owner' ∧ byte ∈ range.bytes ∧ kind = kind') :=
          fun ⟨hf, ho, hb, _⟩ => hc ⟨hf.symm, ho.symm, hb⟩
        tauto

theorem applyFileLock_no_conflict (h : applyFileLock locks file owner pid (some kind) range = .ok locks') :
    (findLockConflict locks file owner kind range).isSome = false := by
  simp only [applyFileLock] at h
  split at h
  case h_1 => cases h
  case h_2 hn => simp [hn]

theorem asU64_eq {value : Int} (h : 0 ≤ value) (hf : value < 2 ^ 64) : (asU64 value : Int) = value := by
  rw [asU64, Int.emod_eq_of_lt h hf, Int.toNat_of_nonneg h]

theorem flockInterval_lt {start len : Int} :
    ∀ stop ∈ (flockInterval start len).snd, (flockInterval start len).fst < stop := by
  intro stop hs
  simp only [flockInterval] at hs ⊢
  split_ifs at hs ⊢ <;> cases hs <;> simp only <;> omega

theorem flockBounds_ok {flock : UserFlock64} {currentOffset fileSize : Nat} {bounds : Int × Option Int}
    (h : flockBounds flock currentOffset fileSize = .ok bounds) :
    0 ≤ bounds.fst ∧ ∀ stop ∈ bounds.snd, bounds.fst < stop := by
  have ⟨base, _, h⟩ := bind_ok h
  have ⟨hn, h⟩ := guard_ok h
  cases h
  simp only [Bool.or_eq_true, decide_eq_true_eq, not_or, not_lt] at hn
  exact ⟨hn.left, flockInterval_lt⟩

-- Where the bounds fit, the range that the source computes has the bytes that are requested.
theorem bytes_of_fits {bounds : Int × Option Int} (hn : 0 ≤ bounds.fst) (hs : ∀ stop ∈ bounds.snd, bounds.fst < stop)
    (hf : bounds.fst < 2 ^ 64) (hf' : ∀ stop ∈ bounds.snd, stop < 2 ^ 64) :
    FileLockRange.bytes ⟨asU64 bounds.fst, bounds.snd.map asU64⟩ = requestedBytes bounds := by
  have hn := asU64_eq hn hf
  ext byte
  simp only [FileLockRange.mem_bytes, requestedBytes, Set.mem_ofPred_eq]
  cases hb : bounds.snd
  case none => simp; omega
  case some stop =>
    have := asU64_eq (by have := hs stop hb; omega) (hf' stop hb)
    simp; omega

theorem nonempty_of_fits {bounds : Int × Option Int} (hn : 0 ≤ bounds.fst)
    (hs : ∀ stop ∈ bounds.snd, bounds.fst < stop) : (requestedBytes bounds).Nonempty :=
  ⟨bounds.fst.toNat, by simp [Int.toNat_of_nonneg hn],
    fun stop h => by rw [Int.toNat_of_nonneg hn]; exact hs stop h⟩

namespace FcntlLockCall

variable {call : FcntlLockCall} {request : FileLockRequest}

theorem request_ok (h : call.request = .ok request) : ∃ flock bounds, call.arg = some flock ∧
    call.bounds = some bounds ∧ request.range = ⟨asU64 bounds.fst, bounds.snd.map asU64⟩ ∧
    0 ≤ bounds.fst ∧ ∀ stop ∈ bounds.snd, bounds.fst < stop := by
  have ⟨flock, ha, h⟩ := bind_ok h
  have ⟨kind, _, h⟩ := bind_ok h
  have ⟨_, h⟩ := guard_ok h
  have ⟨_, h⟩ := guard_ok h
  have ⟨fileDesc, hd, h⟩ := bind_ok h
  have ⟨file, _, h⟩ := bind_ok h
  have ⟨range, hr, h⟩ := bind_ok h
  have ⟨_, h⟩ := guard_ok h
  have ⟨owner, _, h⟩ := bind_ok h
  have ⟨bounds, hb, hr⟩ := bind_ok hr
  cases h
  cases hr
  refine ⟨flock, bounds, elim_ok ha, ?_, rfl, flockBounds_ok hb⟩
  simp [FcntlLockCall.bounds, elim_ok ha, elim_ok hd, hb, Except.toOption]

theorem request_of_setlk (hg : call.cmd.isGetlk) (h : { call with cmd := call.cmd.toSetlk }.request = .ok request)
    (hk : request.kind.isSome) : call.request = .ok request := by
  have ⟨flock, ha, h⟩ := bind_ok h
  have ⟨kind, hk', h⟩ := bind_ok h
  have ⟨ho, h⟩ := guard_ok h
  have ⟨_, h⟩ := guard_ok h
  have ⟨fileDesc, hd, h⟩ := bind_ok h
  have ⟨file, hf, h⟩ := bind_ok h
  have ⟨range, hr, h⟩ := bind_ok h
  have ⟨_, h⟩ := guard_ok h
  have ⟨owner, ho', h⟩ := bind_ok h
  cases h
  dsimp only at ha hk' ho hd hf hr hk
  have he : call.cmd.toSetlk.isOfd = call.cmd.isOfd := by cases call.cmd <;> rfl
  have ho' : call.ownerAndPid fileDesc = .ok owner := by simpa only [ownerAndPid, he] using ho'
  rw [he] at ho
  have hn : ¬(call.cmd.isGetlk && kind.isNone) := by simp [Option.isNone_eq_false_iff.mpr hk]
  have hp : ¬(!call.cmd.isGetlk && !fileDesc.permits kind) := by simp [hg]
  simp only [FcntlLockCall.request, ha, hk', hd, hf, hr, ho', if_neg ho, if_neg hn, if_neg hp, Except.bind, bind,
    pure, Except.pure]

theorem attempt_ok {flock : UserFlock64} (ha : call.arg = some flock) (h : call.request = .ok request) :
    call.attempt locks =
      if call.cmd.isGetlk then (locks, .report (getlkReport locks flock request))
      else match applyFileLock locks request.file request.owner request.pid request.kind request.range with
        | .ok locks    => (locks, .done)
        | .error owner => (locks, if call.cmd.blocking then .blocked owner else .failed .EAGAIN) := by
  cases ho : applyFileLock locks request.file request.owner request.pid request.kind request.range
  case ok => simp only [attempt, ha, h, ho]
  case error => simp only [attempt, ha, h, ho]

theorem attempt_error {err : SysErrNo} (h : call.request = .error err) : call.attempt locks = (locks, .failed err) := by
  simp only [attempt, h]

-- What a call that is granted has done.
theorem attempt_done (h : (call.attempt locks).snd = .done) : ∃ flock request, call.arg = some flock ∧
    call.request = .ok request ∧ call.cmd.isGetlk = false ∧
    applyFileLock locks request.file request.owner request.pid request.kind request.range =
      .ok (call.attempt locks).fst := by
  cases hr : call.request
  case error err => simp [attempt_error hr] at h
  case ok request =>
    have ⟨flock, _, ha, _⟩ := request_ok hr
    refine ⟨flock, request, ha, rfl, ?_⟩
    rw [attempt_ok ha hr] at h ⊢
    split at h
    case isTrue => cases h
    case isFalse hg =>
      refine ⟨by simpa using hg, ?_⟩
      rw [if_neg hg]
      split at h
      case h_1 he => rw [he]
      case h_2 => split at h <;> cases h

theorem attempt_unchanged (h : (call.attempt locks).snd ≠ .done) : (call.attempt locks).fst = locks := by
  cases hr : call.request
  case error err => rw [attempt_error hr]
  case ok request =>
    have ⟨flock, _, ha, _⟩ := request_ok hr
    rw [attempt_ok ha hr] at h ⊢
    split
    case isTrue => rfl
    case isFalse hg =>
      rw [if_neg hg] at h
      split
      case h_1 he => simp [he] at h
      case h_2 => rfl

theorem request_fits (h : call.request = .ok request) (hg : call.cmd.isGetlk = false) (hf : call.Fits) :
    ∃ bounds, call.bounds = some bounds ∧ request.range.bytes = requestedBytes bounds ∧
      request.range.bytes.Nonempty := by
  have ⟨_, bounds, _, hb, hr, hn, hs⟩ := request_ok h
  have ⟨hf, hf'⟩ := hf hg bounds hb
  have he := bytes_of_fits hn hs hf hf'
  rw [← hr] at he
  exact ⟨bounds, hb, he, he ▸ nonempty_of_fits hn hs⟩

theorem attempt_sound (hs : RecordsSound locks) (hf : call.Fits) : RecordsSound (call.attempt locks).fst := by
  by_cases h : (call.attempt locks).snd = .done
  case neg => rwa [attempt_unchanged h]
  case pos =>
    have ⟨_, request, _, hr, hg, ha⟩ := attempt_done h
    have ⟨_, _, _, hn⟩ := request_fits hr hg hf
    exact (applyFileLock_ok hs hn ha).left

-- A search reports a conflict exactly if the request is refused.
theorem getlkReport_iff {flock : UserFlock64} (hk : request.kind.isSome) :
    (getlkReport locks flock request).lType ≠ F_UNLCK ↔
      ∃ owner, applyFileLock locks request.file request.owner request.pid request.kind request.range = .error owner := by
  have ⟨kind, hk⟩ := Option.isSome_iff_exists.mp hk
  simp only [getlkReport, applyFileLock, hk]
  cases findLockConflict locks request.file request.owner kind request.range
  case none => simp
  case some conflict =>
    simp only [flockFromRecord, Except.error.injEq, exists_eq', iff_true]
    cases conflict.kind <;> decide

theorem attempt_getlk (hg : call.cmd.isGetlk) (h : { call with cmd := call.cmd.toSetlk }.request = .ok request)
    (hk : request.kind.isSome) : ∃ report, (call.attempt locks).snd = .report report ∧
      (report.lType ≠ F_UNLCK ↔ ({ call with cmd := call.cmd.toSetlk }.attempt locks).snd = .failed .EAGAIN) := by
  have hr := request_of_setlk hg h hk
  have ⟨flock, _, ha, _⟩ := request_ok hr
  have hb : call.cmd.toSetlk.blocking = false ∧ call.cmd.toSetlk.isGetlk = false := by
    cases hc : call.cmd <;> simp_all [FileLockCmd.toSetlk, FileLockCmd.blocking, FileLockCmd.isGetlk]
  refine ⟨getlkReport locks flock request, by rw [attempt_ok ha hr, if_pos hg], ?_⟩
  have ha : ({ call with cmd := call.cmd.toSetlk } : FcntlLockCall).arg = some flock := ha
  rw [getlkReport_iff hk, attempt_ok ha h]
  simp only [hb]
  cases applyFileLock locks request.file request.owner request.pid request.kind request.range <;> simp

theorem attempt_exact (hs : RecordsSound locks) (hf : call.Fits) : call.Exact locks where
  granted h := by
    have ⟨_, request, _, hr, hg, ha⟩ := attempt_done h
    have ⟨bounds, hb, he, hn⟩ := request_fits hr hg hf
    have ⟨_, hh⟩ := applyFileLock_ok hs hn ha
    exact ⟨request, bounds, hr, hb, fun file owner byte => by simpa only [he] using hh file owner byte⟩
  unchanged := attempt_unchanged
  getlk hg _ := attempt_getlk hg

end FcntlLockCall

namespace LockTableOp

theorem apply_sound {op : LockTableOp} (hs : RecordsSound locks) (hf : op.Fits) : RecordsSound (op.apply locks) := by
  cases op
  case fcntl call => exact FcntlLockCall.attempt_sound hs hf
  case close tgid memFsInode fd =>
    simp only [apply]
    split
    case h_1 => exact hs.filter _
    case h_2 => exact hs
  case closeOnExec tgid memFsInode files =>
    simp only [apply, releasePosixLocksForClosedFiles]
    generalize (files.filterMap (·.lockKey memFsInode)).eraseDups = keys
    induction keys generalizing locks
    case nil => exact hs
    case cons key keys hi => exact hi (hs.filter _)
  case dropDescription => exact hs.filter _
  case exit => exact hs.filter _

theorem foldl_sound {ops : List LockTableOp} (hs : RecordsSound locks) (h : ∀ op ∈ ops, op.Fits) :
    RecordsSound (ops.foldl apply locks) := by
  induction ops generalizing locks
  case nil => exact hs
  case cons op ops hi =>
    have h := List.forall_mem_cons.mp h
    exact hi (apply_sound hs h.left) h.right

-- In every run whose requests have bounds of 64 bits, record locks are exclusive and the calls do what they promise.
theorem run_exact (ops : List LockTableOp) (h : ∀ op ∈ ops, op.Fits) :
    RecordLocksExclusive (run ops) ∧ RecordsWellFormed (run ops) ∧
      ∀ call : FcntlLockCall, call.Fits → call.Exact (run ops) := by
  have hs := foldl_sound .nil h
  exact ⟨hs.compatible.exclusive hs.wellFormed, hs.wellFormed, fun _ hf => FcntlLockCall.attempt_exact hs hf⟩

-- A process locks the last bytes that an offset can reach, at the start of a file.
def lowCall : FcntlLockCall where
  tgid := 7
  fd := some (.ext4Regular 5 0 0 true true 1)
  memFsInode _ := none
  cmd := .setlk
  arg := some ⟨F_WRLCK, 1, 0, 2 ^ 63 - 1, 0⟩

theorem run_exact_lowCall : RecordLocksExclusive (run [.fcntl lowCall]) ∧ RecordsWellFormed (run [.fcntl lowCall]) ∧
    ∀ call : FcntlLockCall, call.Fits → call.Exact (run [.fcntl lowCall]) := by
  refine run_exact [.fcntl lowCall] fun op hm => ?_
  cases List.mem_singleton.mp hm
  intro _ bounds hb
  cases hb
  decide

-- The same request at the largest offset of a file: the end of its range does not fit, and wraps below the start.
def wrapCall : FcntlLockCall where
  tgid := 7
  fd := some (.ext4Regular 5 (2 ^ 63 - 1) 0 true true 1)
  memFsInode _ := none
  cmd := .setlk
  arg := some ⟨F_WRLCK, 1, 2 ^ 63 - 1, 2 ^ 63 - 1, 0⟩

theorem wrapCall_run : run [.fcntl wrapCall] = [⟨.ext4 5, .posix 7, 7, .write, ⟨2 ^ 64 - 2, some (2 ^ 63 - 3)⟩⟩] := by
  have hr : wrapCall.request = .ok ⟨.ext4 5, .posix 7, 7, some .write, ⟨2 ^ 64 - 2, some (2 ^ 63 - 3)⟩⟩ := by decide
  simp only [run, List.foldl, apply, FcntlLockCall.attempt_ok rfl hr, applyFileLock, applyFileUnlock_eq]
  rfl

theorem wrapCall_not_exact : ¬ ∀ ops : List LockTableOp, RecordLocksExclusive (run ops) ∧ RecordsWellFormed (run ops) ∧
    ∀ call : FcntlLockCall, call.Exact (run ops) := by
  intro h
  have hn := (h [.fcntl wrapCall]).right.left.nonempty _ (by rw [wrapCall_run]; exact List.mem_singleton_self _)
  exact absurd (FileLockRange.start_mem_bytes hn) (by decide)

end LockTableOp

end WllOs
