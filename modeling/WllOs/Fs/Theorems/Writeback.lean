import WllOs.Fs.Theorems.CachedRegularFile
import WllOs.Fs.Writeback

namespace WllOs.Fs

namespace PageCacheDirtyModel

variable {model : PageCacheDirtyModel} {pos size start stop : Nat}

@[simp]
theorem refreshWritebackState_ranges : model.refreshWritebackState.ranges = model.ranges := by
  simp only [refreshWritebackState]
  split <;> rfl

@[simp]
theorem refreshWritebackState_fullDirty : model.refreshWritebackState.fullDirty = model.fullDirty := by
  simp only [refreshWritebackState]
  split <;> rfl

@[simp]
theorem refreshWritebackState_sizeDirty : model.refreshWritebackState.sizeDirty = model.sizeDirty := by
  simp only [refreshWritebackState]
  split <;> rfl

@[simp]
theorem refreshWritebackState_seq : model.refreshWritebackState.seq = model.seq := by
  simp only [refreshWritebackState]
  split <;> rfl

theorem settled_inactive (h : model.writeback = model.settled) : ¬model.writebackActive := by
  simp only [writebackActive, h, settled]
  split <;> simp

@[simp]
theorem refreshWritebackState_active : model.refreshWritebackState.writebackActive = model.writebackActive := by
  simp only [refreshWritebackState]
  split
  case isTrue => rfl
  case isFalse h =>
    simp only [Bool.not_eq_true] at h
    rw [h]
    simpa using @settled_inactive { model with writeback := model.settled } rfl

@[simp]
theorem noteWrite_active : model.noteWrite.writebackActive = model.writebackActive := by
  cases h : model.writeback <;> simp [noteWrite, h, writebackActive]

theorem finishWriteback_same (model : PageCacheDirtyModel) {seq : Nat} (completed : Option Span) (committedSize : Bool) (h : model.seq = seq) :
    ∃ finished : PageCacheDirtyModel,
      model.finishWriteback seq completed committedSize = (finished.dataDirty, finished) ∧
      finished.ranges = completed.elim model.ranges (Span.subtract · model.ranges) ∧ finished.fullDirty = false := by
  rw [finishWriteback, if_pos h]
  let finished : PageCacheDirtyModel := { model with
    ranges := completed.elim model.ranges (Span.subtract · model.ranges)
    fullDirty := false
    sizeDirty := model.sizeDirty && !committedSize }
  exact ⟨{ finished with writeback := finished.settled, lastError := none }, rfl, rfl, rfl⟩

theorem finishWriteback_inactive (model : PageCacheDirtyModel) (seq : Nat) (completed : Option Span)
    (committedSize : Bool) : ¬(model.finishWriteback seq completed committedSize).snd.writebackActive := by
  rw [finishWriteback]
  split
  case isTrue => exact settled_inactive rfl
  case isFalse => simp [writebackActive]

-- A range that goes on from the last one.
theorem extendLast_spec {new : Span} {ranges : List Span} (hs : Span.Sorted model.ranges)
    (h : model.extendLast new = some ranges) : Span.Sorted ranges ∧
      ∀ pos, Span.Covers ranges pos ↔ new.Mem pos ∨ Span.Covers model.ranges pos := by
  simp only [extendLast] at h
  split at h
  case h_2 => cases h
  case h_1 last hl =>
    obtain ⟨init, hi⟩ := List.getLast?_eq_some_iff.mp hl
    have := last.nonempty
    have := new.nonempty
    split at h
    case isTrue hm =>
      cases h
      refine ⟨hs, fun pos => ?_⟩
      simp only [hi, Span.covers_append, Span.covers_cons, Span.covers_nil, Span.Mem]
      grind
    case isFalse =>
      split at h
      case isFalse => cases h
      case isTrue hm =>
        cases h
        rw [hi] at hs
        simp only [hi, List.dropLast_concat]
        have hm' (pos : Nat) : (last.hull new).Mem pos ↔ last.Mem pos ∨ new.Mem pos :=
          Span.mem_hull (by omega) (by omega)
        constructor
        case left =>
          obtain ⟨h₁, _, h₂⟩ := List.pairwise_append.mp hs
          refine List.pairwise_append.mpr ⟨h₁, List.pairwise_singleton _ _, fun left hl right hr => ?_⟩
          have := h₂ left hl last (List.mem_singleton_self _)
          simp only [List.mem_singleton.mp hr, Span.hull]
          omega
        case right =>
          intro pos
          simp only [Span.covers_append, Span.covers_cons, Span.covers_nil,
            hm']
          grind

-- What marking a range does.
structure Marked (model : PageCacheDirtyModel) (dirty : Nat → Prop) (marked : PageCacheDirtyModel) : Prop where
  sorted : Span.Sorted marked.ranges
  covers : ∀ pos, Span.Covers marked.ranges pos ↔ dirty pos
  fullDirty : marked.fullDirty = model.fullDirty
  sizeDirty : marked.sizeDirty = model.sizeDirty
  seq : marked.seq = model.seq
  active : marked.writebackActive = model.writebackActive

theorem markDirtyRange_spec (h : Span.Sorted model.ranges) (size start stop : Nat) :
    model.Marked (fun pos => Span.Covers model.ranges pos ∨ (start ≤ pos ∧ pos < min stop size))
      (model.markDirtyRange size start stop) := by
  simp only [markDirtyRange]
  cases ho : Span.ofBounds start (min stop size)
  case none =>
    refine ⟨h, fun pos => ?_, rfl, rfl, rfl, rfl⟩
    have := @Span.covers_ofBounds pos start (min stop size)
    simp only [ho, Option.toList_none, Span.covers_nil, false_iff] at this
    simp only [this, or_false]
  case some new =>
    have hn (pos : Nat) : new.Mem pos ↔ start ≤ pos ∧ pos < min stop size := by
      have := @Span.covers_ofBounds pos start (min stop size)
      simpa [ho] using this
    dsimp only
    cases he : model.extendLast new
    case some ranges =>
      obtain ⟨hs, hc⟩ := extendLast_spec h he
      exact ⟨hs, fun pos => by rw [hc, hn, or_comm], rfl, rfl, rfl, rfl⟩
    case none =>
      refine ⟨by simpa using Span.sorted_insert h, fun pos => ?_, by simp, by simp, by simp, by simp; rfl⟩
      rw [refreshWritebackState_ranges, Span.covers_insert, hn, or_comm]

theorem clipDirtyRanges_spec (h : Span.Sorted model.ranges) (len : Nat) :
    model.Marked (fun pos => Span.Covers model.ranges pos ∧ pos < len) (model.clipDirtyRanges len) := by
  refine ⟨by simpa [clipDirtyRanges] using Span.sorted_clip h, fun pos => ?_, by simp [clipDirtyRanges],
    by simp [clipDirtyRanges], by simp [clipDirtyRanges], by simp [clipDirtyRanges]; rfl⟩
  simp [clipDirtyRanges, Span.covers_clip]

end PageCacheDirtyModel

namespace CachedRegularFile

variable {disk disk' : DiskFile} {cached cached' : CachedRegularFile} {pos : Nat}

-- The invariant of a file and its copy on the disk.
structure Coherent (disk : DiskFile) (cached : CachedRegularFile) : Prop extends WellFormed disk cached where
  noHoles : disk.NoHoles
  sorted : Span.Sorted cached.dirty.ranges
  within : ∀ pos, Span.Covers cached.dirty.ranges pos → pos < cached.size
  persisted_le_kept : cached.persistedSize ≤ cached.kept disk
  kept_le : cached.kept disk ≤ cached.size
  truncate_le : ∀ len, cached.truncateTo = some len → len ≤ cached.size
  clean : ∀ pos < cached.size, ¬cached.DirtyAt pos → pos < cached.kept disk ∧ disk.byte pos = cached.byte disk pos
  settled : ¬cached.dirty.dataDirty → disk.size = cached.size ∧ cached.truncateTo = none
  full : cached.dirty.fullDirty → cached.dirty.sizeDirty
  evicted : cached.evicted = false

theorem Coherent.nothingLost (h : cached.Coherent disk) : cached.NothingLost disk where
  size := by
    simp only [overlaySize]
    split
    case isTrue => rfl
    case isFalse hd => exact (h.settled hd).left
  byte pos hp := by
    simp only [overlayByte]
    split
    case isTrue => rfl
    case isFalse hd =>
      have ⟨hk, hb⟩ := h.clean pos hp hd
      rw [if_pos hk, hb]
  extended pos hp hk := by
    by_contra hd
    have := (h.clean pos hp hd).left
    omega

theorem not_dirtyAt (h : ¬cached.dirty.dataDirty) (pos : Nat) : ¬cached.DirtyAt pos := by
  simp only [PageCacheDirtyModel.dataDirty, Bool.not_eq_true, Bool.or_eq_false_iff, Bool.not_eq_false',
    List.isEmpty_iff] at h
  simp [DirtyAt, h]

-- A file that is clean is on the disk.
theorem Coherent.onDisk (h : cached.Coherent disk) (hd : ¬cached.dirty.dataDirty) : cached.OnDisk disk where
  size := (h.settled hd).left
  byte pos hp := (h.clean pos hp (not_dirtyAt hd pos)).right

-- Nothing has happened to the file since the snapshot was taken.
structure Same (disk : DiskFile) (cached : CachedRegularFile) (snapshot : WritebackSnapshot) : Prop where
  size : cached.size = snapshot.targetLen
  truncateTo : cached.truncateTo = snapshot.truncateTo
  fullDirty : cached.dirty.fullDirty = false
  data : ∀ range pos, snapshot.range = some range → range.Mem pos →
    placed range.start snapshot.data pos = some (cached.byte disk pos)
  commit : snapshot.commitSize → ∀ pos, Span.Covers cached.dirty.ranges pos →
    ∃ range, snapshot.range = some range ∧ range.Mem pos

-- A snapshot in flight that has not been applied. Its range is dirty, and so is all that its truncation cuts off.
structure Flying (disk : DiskFile) (cached : CachedRegularFile) (snapshot : WritebackSnapshot) : Prop where
  dirty : cached.dirty.dataDirty
  range : ∀ range, snapshot.range = some range → range.stop ≤ snapshot.targetLen ∧
    snapshot.data.length = range.stop - range.start ∧ range.start ≤ min disk.size snapshot.cut
  covered : ∀ range pos, snapshot.range = some range → range.Mem pos → pos < cached.size → cached.DirtyAt pos
  kept : ∀ pos < cached.size, ¬cached.DirtyAt pos → pos < snapshot.cut
  persisted : cached.persistedSize ≤ snapshot.cut
  fromDisk : ∀ range pos, snapshot.range = some range → range.Mem pos → cached.FromDisk pos →
    placed range.start snapshot.data pos = some (disk.byte pos)
  target : cached.truncateTo = none → snapshot.targetLen ≤ cached.size
  commit : snapshot.commitSize → max (min disk.size snapshot.cut) snapshot.rangeStop = snapshot.targetLen
  same : cached.dirty.seq = snapshot.dirtySeq → cached.Same disk snapshot

-- A snapshot that has been applied. If nothing has happened since, its range is on the disk.
structure Landed (disk : DiskFile) (cached : CachedRegularFile) (snapshot : WritebackSnapshot) : Prop where
  dirty : cached.dirty.dataDirty
  persisted : cached.persistedSize ≤ snapshot.targetLen
  same : cached.dirty.seq = snapshot.dirtySeq → cached.Same disk snapshot ∧ disk.size ≤ cached.size ∧
    (snapshot.commitSize → disk.size = cached.size) ∧
    ∀ range pos, snapshot.range = some range → range.Mem pos → pos < disk.size ∧ disk.byte pos = cached.byte disk pos

-- What changing a file does to what is dirty. A position that is not dirty then was not before.
structure Modified (cached cached' : CachedRegularFile) : Prop where
  dirty : cached'.dirty.dataDirty
  seq : cached'.dirty.seq = Usize.wrappingAdd cached.dirty.seq 1
  active : cached'.dirty.writebackActive = cached.dirty.writebackActive
  persisted : cached'.persistedSize ≤ cached.persistedSize
  fromDisk : ∀ pos, cached'.FromDisk pos → cached.FromDisk pos
  clean : ∀ pos < cached'.size, ¬cached'.DirtyAt pos → pos < cached.size ∧ ¬cached.DirtyAt pos
  truncateTo : cached'.truncateTo = none → cached.truncateTo = none ∧ cached.size ≤ cached'.size

variable {snapshot : WritebackSnapshot}

theorem Flying.modified (h : cached.Flying disk snapshot) (hm : cached.Modified cached')
    (hs : cached'.dirty.seq ≠ snapshot.dirtySeq) : cached'.Flying disk snapshot where
  dirty := hm.dirty
  range := h.range
  covered range pos hr hp hl := by
    by_contra hd
    have ⟨hl', hd'⟩ := hm.clean pos hl hd
    exact hd' (h.covered range pos hr hp hl')
  kept pos hl hd := by
    have ⟨hl', hd'⟩ := hm.clean pos hl hd
    exact h.kept pos hl' hd'
  persisted := Nat.le_trans hm.persisted h.persisted
  fromDisk range pos hr hp hf := h.fromDisk range pos hr hp (hm.fromDisk pos hf)
  target ht := by
    have ⟨ht, hl⟩ := hm.truncateTo ht
    exact Nat.le_trans (h.target ht) hl
  commit := h.commit
  same he := absurd he hs

theorem Landed.modified (h : cached.Landed disk snapshot) (hm : cached.Modified cached')
    (hs : cached'.dirty.seq ≠ snapshot.dirtySeq) : cached'.Landed disk snapshot where
  dirty := hm.dirty
  persisted := Nat.le_trans hm.persisted h.persisted
  same he := absurd he hs

-- A change that has failed may have taken the vector away.
theorem Coherent.holds (h : cached.Coherent disk) (hh : cached.Holds disk (cached.byte disk) cached')
    (hw : cached'.WellFormed disk) : cached'.Coherent disk := by
  have ⟨⟨_, _, he⟩, hb, _⟩ := hh
  subst he
  exact ⟨hw, h.noHoles, h.sorted, h.within, h.persisted_le_kept, h.kept_le, h.truncate_le,
    fun pos hp hd => by rw [hb pos]; exact h.clean pos hp hd, h.settled, h.full, h.evicted⟩

theorem Same.holds (h : cached.Same disk snapshot) (hh : cached.Holds disk (cached.byte disk) cached') :
    cached'.Same disk snapshot := by
  have ⟨⟨_, _, he⟩, hb, _⟩ := hh
  subst he
  exact ⟨h.size, h.truncateTo, h.fullDirty, fun range pos hr hp => by rw [hb pos]; exact h.data range pos hr hp,
    h.commit⟩

theorem Flying.holds (h : cached.Flying disk snapshot) (hh : cached.Holds disk (cached.byte disk) cached') :
    cached'.Flying disk snapshot := by
  have hs := fun he => (h.same he).holds hh
  have ⟨⟨_, _, he⟩, hb, hf⟩ := hh
  subst he
  exact ⟨h.dirty, h.range, h.covered, h.kept, h.persisted,
    fun range pos hr hp hd => h.fromDisk range pos hr hp (hf pos hd), h.target, h.commit, hs⟩

theorem Landed.holds (h : cached.Landed disk snapshot) (hh : cached.Holds disk (cached.byte disk) cached') :
    cached'.Landed disk snapshot := by
  have hs := fun he => (h.same he).left.holds hh
  have ⟨⟨_, _, he⟩, hb, hf⟩ := hh
  subst he
  refine ⟨h.dirty, h.persisted, fun he => ⟨hs he, (h.same he).right.left, (h.same he).right.right.left, ?_⟩⟩
  intro range pos hr hp
  rw [hb pos]
  exact (h.same he).right.right.right range pos hr hp

theorem noteCachedDataWrite_dirty (h : Span.Sorted cached.dirty.ranges) (offset n : Nat) :
    cached.dirty.Marked (fun pos => Span.Covers cached.dirty.ranges pos ∨ (offset ≤ pos ∧ pos < offset + n))
      (cached.dirty.markDirtyRange (max cached.size (offset + n)) offset (offset + n)) := by
  have hm := PageCacheDirtyModel.markDirtyRange_spec h (max cached.size (offset + n)) offset (offset + n)
  rwa [Nat.min_eq_left (Nat.le_max_right _ _)] at hm

theorem dirtyAt_noteCachedDataWrite (h : Span.Sorted cached.dirty.ranges) (offset n : Nat) :
    (cached.noteCachedDataWrite offset (offset + n)).DirtyAt pos ↔
      cached.DirtyAt pos ∨ (offset ≤ pos ∧ pos < offset + n) := by
  have hm := noteCachedDataWrite_dirty h offset n
  simp only [DirtyAt, noteCachedDataWrite, PageCacheDirtyModel.noteWrite, hm.fullDirty, hm.covers, or_assoc]

section

variable {offset n : Nat} {buf : List UInt8} {stored : CachedRegularFile}

theorem Modified.written (hs : Span.Sorted cached.dirty.ranges) (ho : offset ≤ cached.size) (hn : 0 < n)
    (hh : cached.Holds disk (fun pos => (placed offset buf pos).getD (cached.byte disk pos)) stored) :
    cached.Modified (stored.noteCachedDataWrite offset (offset + n)) := by
  have ⟨⟨_, _, he⟩, _, hf⟩ := hh
  subst he
  have hm := noteCachedDataWrite_dirty hs offset n
  have hd (pos : Nat) := @dirtyAt_noteCachedDataWrite _ pos hs offset n
  constructor
  case dirty =>
    have hc := (hm.covers offset).mpr (.inr ⟨Nat.le_refl _, by omega⟩)
    simp only [noteCachedDataWrite, PageCacheDirtyModel.noteWrite, PageCacheDirtyModel.dataDirty]
    cases hr : (cached.dirty.markDirtyRange (max cached.size (offset + n)) offset (offset + n)).ranges
    case nil => simp [hr] at hc
    case cons => simp
  case seq => simp only [noteCachedDataWrite, PageCacheDirtyModel.noteWrite, hm.seq]
  case active =>
    simp only [noteCachedDataWrite, PageCacheDirtyModel.noteWrite_active]
    exact hm.active
  case persisted => exact Nat.le_refl _
  case fromDisk => exact hf
  case clean =>
    intro pos hp hdirty
    have := mt (hd pos).mpr hdirty
    simp only [noteCachedDataWrite] at hp
    simp only [not_or] at this
    exact ⟨by omega, this.left⟩
  case truncateTo =>
    intro ht
    exact ⟨ht, Nat.le_max_left _ _⟩

theorem Coherent.written (h : cached.Coherent disk) (ho : offset ≤ cached.size) (hn : buf.length = n)
    (hh : cached.Holds disk (fun pos => (placed offset buf pos).getD (cached.byte disk pos)) stored)
    (hw : (stored.noteCachedDataWrite offset (offset + n)).WellFormed disk) (hpos : 0 < n) :
    (stored.noteCachedDataWrite offset (offset + n)).Coherent disk := by
  have hmod := Modified.written h.sorted ho hpos hh
  obtain ⟨⟨_, _, he⟩, hb, _⟩ := hh
  subst he
  have hm := noteCachedDataWrite_dirty h.sorted offset n
  refine ⟨hw, h.noHoles, hm.sorted, ?_, h.persisted_le_kept, Nat.le_trans h.kept_le (Nat.le_max_left _ _), ?_, ?_,
    fun hd => absurd hmod.dirty hd, ?_, h.evicted⟩
  · intro pos hp
    have hle := h.within pos
    simp only [noteCachedDataWrite]
    obtain hp | hp := (hm.covers pos).mp hp
    case inl =>
      have := hle hp
      omega
    case inr => omega
  · intro len ht
    exact Nat.le_trans (h.truncate_le len ht) (Nat.le_max_left _ _)
  · intro pos hp hd
    have hd' := mt (dirtyAt_noteCachedDataWrite h.sorted offset n).mpr hd
    obtain ⟨hk, hbyte⟩ := h.clean pos (hmod.clean pos hp hd).left (hmod.clean pos hp hd).right
    refine ⟨hk, ?_⟩
    rw [byte_noteCachedDataWrite, hb pos, placed_of_not_mem, Option.getD_none, hbyte]
    simp only [not_or, not_and, Nat.not_lt] at hd'
    by_cases ho : offset ≤ pos
    case pos =>
      have := hd'.right ho
      omega
    case neg => omega
  · intro hf
    have := h.full (hm.fullDirty.symm.trans hf)
    simp [noteCachedDataWrite, PageCacheDirtyModel.noteWrite, hm.sizeDirty, this]

end

section

variable {newLen : Nat}

theorem dirtyAt_shrink (h : Span.Sorted cached.dirty.ranges) (hp : pos < newLen) :
    (cached.shrink newLen).DirtyAt pos ↔ cached.DirtyAt pos := by
  have hm := PageCacheDirtyModel.clipDirtyRanges_spec h newLen
  simp only [DirtyAt, shrink, PageCacheDirtyModel.noteWrite, hm.fullDirty, hm.covers, hp, and_true]

theorem Modified.shrink (hs : Span.Sorted cached.dirty.ranges) (hn : newLen < cached.size) :
    cached.Modified (cached.shrink newLen) := by
  have hm := PageCacheDirtyModel.clipDirtyRanges_spec hs newLen
  constructor
  case dirty => simp [CachedRegularFile.shrink, PageCacheDirtyModel.noteWrite, PageCacheDirtyModel.dataDirty]
  case seq => simp [CachedRegularFile.shrink, PageCacheDirtyModel.noteWrite, hm.seq]
  case active =>
    simp only [CachedRegularFile.shrink, PageCacheDirtyModel.noteWrite_active]
    exact hm.active
  case persisted => exact Nat.min_le_left _ _
  case fromDisk => exact fun _ => fromDisk_shrink
  case clean =>
    intro pos hp hd
    exact ⟨Nat.lt_trans hp hn, mt (dirtyAt_shrink hs hp).mpr hd⟩
  case truncateTo => exact fun ht => by cases ht

theorem Coherent.shrink (h : cached.Coherent disk) (hw : (cached.shrink newLen).WellFormed disk)
    (hn : newLen < cached.size) : (cached.shrink newLen).Coherent disk := by
  have hm := PageCacheDirtyModel.clipDirtyRanges_spec h.sorted newLen
  have hmod := Modified.shrink h.sorted hn
  have hk : (cached.shrink newLen).kept disk = min (cached.kept disk) newLen := by
    simp only [kept, CachedRegularFile.shrink]
    cases cached.truncateTo
    case none => simp
    case some len => simp [Nat.min_assoc]
  have := h.persisted_le_kept
  refine ⟨hw, h.noHoles, hm.sorted, fun pos hp => ((hm.covers pos).mp hp).right, ?_, ?_, ?_, ?_,
    fun hd => absurd hmod.dirty hd, fun _ => rfl, h.evicted⟩
  · rw [hk]
    simp only [CachedRegularFile.shrink]
    omega
  · rw [hk]
    exact Nat.min_le_right _ _
  · intro len ht
    simp only [CachedRegularFile.shrink, Option.some.injEq] at ht ⊢
    rw [← ht]
    cases cached.truncateTo
    case none => exact Nat.le_refl _
    case some => exact Nat.min_le_right _ _
  · intro pos hp hd
    obtain ⟨hl, hd'⟩ := hmod.clean pos hp hd
    obtain ⟨hkept, hb⟩ := h.clean pos hl hd'
    have hp' : pos < newLen := hp
    rw [hk, byte_shrink, if_pos hp']
    exact ⟨by omega, hb⟩

theorem grow_dirty (h : Span.Sorted cached.dirty.ranges) (newLen : Nat) :
    cached.dirty.Marked (fun pos => Span.Covers cached.dirty.ranges pos ∨ (cached.size ≤ pos ∧ pos < newLen))
      (cached.dirty.markDirtyRange newLen cached.size newLen) := by
  have hm := PageCacheDirtyModel.markDirtyRange_spec h newLen cached.size newLen
  rwa [Nat.min_self] at hm

theorem Modified.grow (hs : Span.Sorted cached.dirty.ranges) (hn : cached.size < newLen) :
    cached.Modified (cached.grow newLen) := by
  have hm := grow_dirty hs newLen
  constructor
  case dirty => simp [CachedRegularFile.grow, PageCacheDirtyModel.noteWrite, PageCacheDirtyModel.dataDirty]
  case seq => simp [CachedRegularFile.grow, PageCacheDirtyModel.noteWrite, hm.seq]
  case active =>
    simp only [CachedRegularFile.grow, PageCacheDirtyModel.noteWrite_active]
    exact hm.active
  case persisted => exact Nat.le_refl _
  case fromDisk => exact fun _ h => ⟨by simpa [CachedRegularFile.grow] using h.1, h.2⟩
  case clean =>
    intro pos hp hd
    have hp' : pos < newLen := hp
    simp only [DirtyAt, CachedRegularFile.grow, PageCacheDirtyModel.noteWrite, hm.fullDirty, hm.covers, not_or] at hd ⊢
    exact ⟨by omega, hd.left, hd.right.left⟩
  case truncateTo => exact fun ht => ⟨ht, Nat.le_of_lt hn⟩

theorem Coherent.grow (h : cached.Coherent disk) (hw : (cached.grow newLen).WellFormed disk)
    (hn : cached.size < newLen) : (cached.grow newLen).Coherent disk := by
  have hm := grow_dirty h.sorted newLen
  have hmod := Modified.grow h.sorted hn
  refine ⟨hw, h.noHoles, hm.sorted, ?_, h.persisted_le_kept, Nat.le_trans h.kept_le (Nat.le_of_lt hn), ?_, ?_,
    fun hd => absurd hmod.dirty hd, fun _ => rfl, h.evicted⟩
  · intro pos hp
    obtain hp | hp := (hm.covers pos).mp hp
    case inl => exact Nat.lt_trans (h.within pos hp) hn
    case inr => exact hp.right
  · exact fun len ht => Nat.le_trans (h.truncate_le len ht) (Nat.le_of_lt hn)
  · intro pos hp hd
    have ⟨hl, hd'⟩ := hmod.clean pos hp hd
    rw [byte_grow h.toWellFormed (Nat.le_of_lt hn)]
    exact h.clean pos hl hd'

theorem Modified.setSize (hs : Span.Sorted cached.dirty.ranges) (newLen : Nat) :
    cached.Modified (cached.setSize newLen) := by
  simp only [CachedRegularFile.setSize]
  split
  case isTrue hn => exact .shrink hs hn
  case isFalse =>
    split
    case isTrue hn => exact .grow hs hn
    case isFalse =>
      constructor
      case dirty => simp [PageCacheDirtyModel.noteWrite, PageCacheDirtyModel.dataDirty]
      case seq => rfl
      case active => exact PageCacheDirtyModel.noteWrite_active
      case persisted => exact Nat.le_refl _
      case fromDisk => exact fun _ => id
      case clean => exact fun _ hp hd => ⟨hp, hd⟩
      case truncateTo => exact fun ht => ⟨ht, Nat.le_refl _⟩

theorem Coherent.setSize (h : cached.Coherent disk) (newLen : Nat) : (cached.setSize newLen).Coherent disk := by
  have ⟨hw, _⟩ := setSize_spec h.toWellFormed newLen
  have hmod := Modified.setSize h.sorted newLen
  simp only [CachedRegularFile.setSize] at hw hmod ⊢
  split
  case isTrue hn =>
    rw [if_pos hn] at hw
    exact h.shrink hw hn
  case isFalse hn =>
    rw [if_neg hn] at hw hmod
    split
    case isTrue hn' =>
      rw [if_pos hn'] at hw
      exact h.grow hw hn'
    case isFalse hn' =>
      rw [if_neg hn'] at hw hmod
      exact ⟨hw, h.noHoles, h.sorted, h.within, h.persisted_le_kept, h.kept_le, h.truncate_le, h.clean,
        fun hd => absurd hmod.dirty hd, fun _ => rfl, h.evicted⟩

end

theorem WellFormed.setDirty (h : cached.WellFormed disk) (dirty : PageCacheDirtyModel) :
    ({ cached with dirty } : CachedRegularFile).WellFormed disk :=
  ⟨⟨h.dense, h.persisted, h.bound⟩, h.persisted_le, h.zero⟩

-- A file that is dirty as a whole gets a range for all of it.
theorem Coherent.expand (h : cached.Coherent disk) :
    ({ cached with dirty := cached.expandFullDirty } : CachedRegularFile).Coherent disk ∧
      cached.expandFullDirty.fullDirty = false ∧
      cached.expandFullDirty.dataDirty = cached.dirty.dataDirty ∧
      cached.expandFullDirty.writebackActive = cached.dirty.writebackActive := by
  by_cases hf : cached.dirty.fullDirty
  case neg =>
    have he : cached.expandFullDirty = cached.dirty := if_neg hf
    rw [he]
    exact ⟨h, by simpa using hf, rfl, rfl⟩
  case pos =>
    have hs := h.full hf
    have he : cached.expandFullDirty =
      { cached.dirty with ranges := (Span.ofBounds 0 cached.size).toList, fullDirty := false } := if_pos hf
    rw [he]
    refine ⟨⟨h.toWellFormed.setDirty _, h.noHoles, ?_, ?_, h.persisted_le_kept, h.kept_le, h.truncate_le, ?_, ?_, nofun,
      h.evicted⟩, rfl, by simp [PageCacheDirtyModel.dataDirty, hs], rfl⟩
    · cases Span.ofBounds 0 cached.size
      case none => exact List.Pairwise.nil
      case some => exact List.pairwise_singleton _ _
    · intro pos hp
      exact (Span.covers_ofBounds.mp hp).right
    · intro pos hp hd
      exact absurd (Or.inr (Span.covers_ofBounds.mpr ⟨Nat.zero_le _, hp⟩)) hd
    · intro hd
      simp [PageCacheDirtyModel.dataDirty, hs] at hd

theorem placed_range (f : Nat → UInt8) (start len : Nat) :
    placed start ((List.range len).map fun i => f (start + i)) pos =
      if start ≤ pos ∧ pos < start + len then some (f pos) else none := by
  simp only [placed, List.getElem?_map]
  split
  case isTrue hs =>
    by_cases hl : pos < start + len
    case pos =>
      rw [List.getElem?_range (by omega), if_pos ⟨hs, hl⟩]
      simp [Nat.add_sub_cancel' hs]
    case neg => rw [List.getElem?_eq_none (by simp; omega), if_neg (by omega), Option.map_none]
  case isFalse hs => rw [if_neg (by omega)]

-- Before a snapshot has been taken, applying it would cut the file on the disk where the pending truncation does.
theorem Coherent.cut_eq (h : cached.Coherent disk) (snapshot : WritebackSnapshot) (hs : snapshot.targetLen = cached.size)
    (ht : snapshot.truncateTo = cached.truncateTo) : min disk.size snapshot.cut = cached.kept disk := by
  have hk := h.kept_le
  have hl := h.truncate_le
  simp only [kept] at hk ⊢
  simp only [WritebackSnapshot.cut, hs, ht]
  cases hc : cached.truncateTo
  case none =>
    simp only [hc, Option.getD_none, Nat.min_self] at hk ⊢
    omega
  case some len =>
    have := hl len hc
    simp only [Option.getD_some]
    omega

theorem Coherent.firstRange (h : cached.Coherent disk) (hf : cached.dirty.fullDirty = false) {range : Span}
    (hr : cached.dirty.ranges.head? = some range) : range.start ≤ cached.kept disk := by
  have ⟨ranges, hc⟩ : ∃ ranges, cached.dirty.ranges = range :: ranges := ⟨_, List.eq_cons_of_mem_head? hr⟩
  have hstop := h.within range.start (by rw [hc]; exact Span.covers_cons.mpr (.inl ⟨Nat.le_refl _, range.nonempty⟩))
  by_contra hn
  have hp : ¬cached.DirtyAt (range.start - 1) := by
    have hs := h.sorted
    simp only [DirtyAt, hf, Bool.false_eq_true, false_or]
    rw [hc] at hs ⊢
    exact Span.not_covers_of_lt hs (by omega)
  have := (h.clean (range.start - 1) (by omega) hp).left
  omega

-- Only the state of the writeback is different.
theorem Coherent.setDirty (h : cached.Coherent disk) (dirty : PageCacheDirtyModel)
    (hr : dirty.ranges = cached.dirty.ranges) (hf : dirty.fullDirty = cached.dirty.fullDirty)
    (hs : dirty.sizeDirty = cached.dirty.sizeDirty) :
    ({ cached with dirty } : CachedRegularFile).Coherent disk := by
  refine ⟨h.toWellFormed.setDirty dirty, h.noHoles, ?_, ?_, h.persisted_le_kept, h.kept_le, h.truncate_le, ?_, ?_, ?_,
    h.evicted⟩
  · exact hr ▸ h.sorted
  · exact hr ▸ h.within
  · simp only [DirtyAt, hr, hf]
    exact h.clean
  · simp only [PageCacheDirtyModel.dataDirty, hr, hf, hs]
    exact h.settled
  · exact fun h' => hs ▸ h.full (hf ▸ h')

theorem cluster_spec {range completed : Span} (h : cluster range = some completed) :
    completed.start = range.start ∧ completed.stop ≤ range.stop := by
  have ⟨h₁, h₂⟩ := Span.mem_ofBounds.mp h
  omega

theorem commitsSize_spec {range : Option Span} {ranges : List Span} (h : commitsSize range ranges) :
    (range = none ∧ ranges = []) ∨ ∃ completed only, range = some completed ∧ ranges = [only] ∧
      completed.start = only.start ∧ completed.stop = only.stop := by
  match range, ranges with
  | none,           []     => exact .inl ⟨rfl, rfl⟩
  | some completed, [only] => exact .inr ⟨completed, only, rfl, rfl, by simpa [commitsSize] using h⟩
  | none,           _ :: _ => simp [commitsSize] at h
  | some _,         []     => simp [commitsSize] at h
  | some _, _ :: _ :: _    => simp [commitsSize] at h

-- What a snapshot of all that is dirty makes the size on the disk.
theorem Coherent.commit_eq (h : cached.Coherent disk) (hf : cached.dirty.fullDirty = false) {range : Option Span}
    (hc : commitsSize range cached.dirty.ranges) :
    max (cached.kept disk) (range.elim 0 Span.stop) = cached.size := by
  have hk := h.kept_le
  have hle (hn : ∀ pos, pos + 1 = cached.size → ¬Span.Covers cached.dirty.ranges pos) :
      cached.size ≤ cached.kept disk := by
    by_contra hlt
    have hd : ¬cached.DirtyAt (cached.size - 1) := by
      simp only [DirtyAt, hf, Bool.false_eq_true, false_or]
      exact hn _ (by omega)
    have := (h.clean (cached.size - 1) (by omega) hd).left
    omega
  obtain ⟨hr, hrs⟩ | ⟨completed, only, hr, hrs, h₁, h₂⟩ := commitsSize_spec hc
  case inl =>
    have := hle (by simp [hrs])
    simp only [hr, Option.elim]
    omega
  case inr =>
    have hn := only.nonempty
    have hw := h.within (only.stop - 1) (by
      rw [hrs]
      exact Span.covers_cons.mpr (.inl ⟨by omega, by omega⟩))
    simp only [hr, Option.elim, h₂]
    by_cases he : only.stop = cached.size
    case pos => omega
    case neg =>
      have := hle (by
        intro pos hp
        rw [hrs, Span.covers_cons]
        simp only [Span.Mem, Span.covers_nil, or_false]
        omega)
      omega

-- The snapshot that is taken when the range of the file is `range`.
theorem Coherent.flying (h : cached.Coherent disk) (hf : cached.dirty.fullDirty = false)
    (hd : cached.dirty.dataDirty) {range : Option Span} (hr : range = cached.dirty.ranges.head?.bind cluster)
    (data : List UInt8) (hdata : ∀ r, range = some r →
      data = (List.range (r.stop - r.start)).map fun i => cached.byte disk (r.start + i)) :
    cached.Flying disk
      ⟨cached.size, cached.truncateTo, range, data, commitsSize range cached.dirty.ranges, cached.dirty.seq⟩ := by
  have hhead (r : Span) (he : range = some r) :
      ∃ first, cached.dirty.ranges.head? = some first ∧ cluster first = some r := by
    rw [hr] at he
    exact Option.bind_eq_some_iff.mp he
  have hcover (r : Span) (pos : Nat) (he : range = some r) (hp : r.Mem pos) :
      Span.Covers cached.dirty.ranges pos := by
    have ⟨first, hfirst, hc⟩ := hhead r he
    have ⟨h₁, h₂⟩ := cluster_spec hc
    have ⟨h₃, h₄⟩ := hp
    exact ⟨first, List.mem_of_mem_head? hfirst, by omega, by omega⟩
  have hplaced (r : Span) (pos : Nat) (he : range = some r) (hp : r.Mem pos) :
      placed r.start data pos = some (cached.byte disk pos) := by
    have ⟨h₁, h₂⟩ := hp
    rw [hdata r he, placed_range, if_pos (by omega)]
  have hcut := h.cut_eq ⟨cached.size, cached.truncateTo, range, data, commitsSize range cached.dirty.ranges,
    cached.dirty.seq⟩ rfl rfl
  have hpk := h.persisted_le_kept
  constructor
  case dirty => exact hd
  case range =>
    intro r he
    have ⟨first, hfirst, hc⟩ := hhead r he
    have ⟨h₁, h₂⟩ := cluster_spec hc
    have hn := r.nonempty
    refine ⟨?_, by simp [hdata r he], ?_⟩
    · have := h.within (r.stop - 1) (hcover r _ he ⟨by omega, by omega⟩)
      dsimp only
      omega
    · rw [hcut, h₁]
      exact h.firstRange hf hfirst
  case covered => exact fun r pos he hp _ => .inr (hcover r pos he hp)
  case kept =>
    intro pos hp hdirty
    have := (h.clean pos hp hdirty).left
    omega
  case persisted => omega
  case fromDisk =>
    intro r pos he hp ⟨hdense, hpage, hlt⟩
    rw [hplaced r pos he hp]
    simp [byte, hdense, hpage, hlt]
  case target => exact fun _ => Nat.le_refl _
  case commit =>
    intro hc
    rw [hcut]
    exact h.commit_eq hf hc
  case same =>
    refine fun _ => ⟨rfl, rfl, hf, hplaced, fun hc pos hp => ?_⟩
    obtain ⟨_, hrs⟩ | ⟨completed, only, he, hrs, h₁, h₂⟩ := commitsSize_spec hc
    case inl => simp [hrs] at hp
    case inr =>
      rw [hrs, Span.covers_cons] at hp
      simp only [Span.Mem, Span.covers_nil, or_false] at hp
      exact ⟨completed, he, by omega, by omega⟩

-- What taking a snapshot comes to.
def TakeSpec (disk : DiskFile) (cached : CachedRegularFile) : WritebackSnapshotResult × CachedRegularFile → Prop
  | (.noCache, _)               => False
  | (.clean, cached')           => cached' = cached ∧ ¬cached.dirty.dataDirty
  | (.failed _, cached')        => cached' = cached
  | (.busy, cached')            => cached.dirty.writebackActive ∧ cached' = { cached with dirty := cached.expandFullDirty }
  | (.snapshot flight, cached') => ¬cached.dirty.writebackActive ∧ cached'.dirty.writebackActive ∧
      cached'.Coherent disk ∧ cached'.Flying disk flight ∧ cached'.dirty.seq = flight.dirtySeq ∧
      ∃ dirty, cached' = { cached with dirty }

theorem Coherent.take (h : cached.Coherent disk) : cached.TakeSpec disk (cached.takeWritebackSnapshot disk) := by
  have ⟨he, hfull, hdirty, hactive⟩ := h.expand
  have hev := h.evicted
  have hd : cached.isDirty = cached.dirty.dataDirty := by simp [isDirty, hev]
  rw [takeWritebackSnapshot, if_neg (by simp [hev]), hd]
  split
  case isTrue hd => exact ⟨rfl, hd⟩
  case isFalse hd =>
    simp only [not_not] at hd
    cases cached.dirty.lastError
    case some err => exact rfl
    case none =>
      dsimp only
      by_cases ha : cached.dirty.writebackActive
      case pos =>
        have hb : cached.expandFullDirty.beginWriteback = none := by
          simp [PageCacheDirtyModel.beginWriteback, hactive, ha]
        rw [hb]
        exact ⟨ha, rfl⟩
      case neg =>
        have hb : cached.expandFullDirty.beginWriteback =
            some (cached.expandFullDirty.seq, { cached.expandFullDirty with writeback := .writeback }) := by
          simp [PageCacheDirtyModel.beginWriteback, hactive, ha, hdirty, hd]
        rw [hb]
        dsimp only
        generalize hr : cached.expandFullDirty.ranges.head?.bind cluster = range
        have hw := he.setDirty { cached.expandFullDirty with writeback := .writeback } rfl rfl rfl
        have hflying (data : List UInt8) := hw.flying hfull (hdirty.trans hd) hr.symm data
        cases range
        case none => exact ⟨ha, rfl, hw, hflying [] nofun, rfl, _, rfl⟩
        case some r =>
          have hf := hflying _ (by
            intro r he
            cases he
            rfl)
          have hn := r.nonempty
          have hs := (hf.range r rfl).left
          dsimp only at hs
          rw [Option.elim, copyCachedRange_eq hw.toReadable (by dsimp only; omega)]
          exact ⟨ha, rfl, hw, hf, rfl, _, rfl⟩

theorem byte_congr (h : ∀ pos, cached.FromDisk pos → disk'.byte pos = disk.byte pos) (pos : Nat) :
    cached.byte disk' pos = cached.byte disk pos := by
  simp only [byte]
  cases hd : cached.dense
  case some => rfl
  case none =>
    cases hp : cached.pages (pos / pageSize)
    case some => rfl
    case none =>
      dsimp only
      split
      case isTrue hlt => exact h pos ⟨hd, hp, hlt⟩
      case isFalse => rfl

-- What may have become of the disk while the snapshot is applied.
structure Applying (disk : DiskFile) (snapshot : WritebackSnapshot) (disk' : DiskFile) : Prop where
  noHoles : disk'.NoHoles
  bound : disk'.size ≤ EXT_MAX_SIZE
  size_ge : min disk.size snapshot.cut ≤ disk'.size
  size_le : disk'.size ≤ max (min disk.size snapshot.cut) snapshot.rangeStop
  byte : ∀ pos < min disk.size snapshot.cut, disk'.byte pos = disk.byte pos ∨
    ∃ range, snapshot.range = some range ∧ range.Mem pos ∧ placed range.start snapshot.data pos = some (disk'.byte pos)

theorem Flying.byte_eq (hf : cached.Flying disk snapshot) (h : cached.Coherent disk)
    (ha : Applying disk snapshot disk') (pos : Nat) : cached.byte disk' pos = cached.byte disk pos := by
  apply byte_congr
  intro pos hd
  have := h.persisted
  have := hf.persisted
  have := hd.right.right
  obtain hb | ⟨range, hr, hm, hp⟩ := ha.byte pos (by omega)
  case inl => exact hb
  case inr =>
    rw [hf.fromDisk range pos hr hm hd] at hp
    exact (Option.some.inj hp).symm

theorem Flying.rangeStop_le (hf : cached.Flying disk snapshot) : snapshot.rangeStop ≤ snapshot.targetLen := by
  simp only [WritebackSnapshot.rangeStop]
  cases hr : snapshot.range
  case none => exact Nat.zero_le _
  case some range => exact (hf.range range hr).left

theorem WritebackSnapshot.cut_le (snapshot : WritebackSnapshot) : snapshot.cut ≤ snapshot.targetLen :=
  Nat.min_le_right _ _

theorem Flying.coherent (hf : cached.Flying disk snapshot) (h : cached.Coherent disk)
    (ha : Applying disk snapshot disk') : cached.Coherent disk' := by
  have hb := hf.byte_eq h ha
  have hpc := hf.persisted
  have hpd := h.persisted
  have hpk := h.persisted_le_kept
  have hge := ha.size_ge
  have hle := ha.size_le
  have hct := WritebackSnapshot.cut_le snapshot
  have hrs := hf.rangeStop_le
  refine ⟨⟨⟨h.dense, by omega, ha.bound⟩, h.persisted_le, fun pos hp => (hb pos).trans (h.zero pos hp)⟩, ha.noHoles,
    h.sorted, h.within, ?_, ?_, h.truncate_le, ?_, fun hd => absurd hf.dirty hd, h.full, h.evicted⟩
  · simp only [CachedRegularFile.kept] at hpk ⊢
    cases ht : cached.truncateTo
    case none => simp only [Option.getD_none]; omega
    case some len =>
      simp only [ht, Option.getD_some] at hpk ⊢
      omega
  · simp only [CachedRegularFile.kept]
    cases ht : cached.truncateTo
    case none =>
      have := hf.target ht
      simp only [Option.getD_none]
      omega
    case some len =>
      have := h.truncate_le len ht
      simp only [Option.getD_some]
      omega
  · intro pos hp hd
    have ⟨hk, hbyte⟩ := h.clean pos hp hd
    have hcut := hf.kept pos hp hd
    simp only [CachedRegularFile.kept] at hk ⊢
    refine ⟨?_, ?_⟩
    · cases ht : cached.truncateTo
      case none => simp only [ht, Option.getD_none] at hk ⊢; omega
      case some len => simp only [ht, Option.getD_some] at hk ⊢; omega
    · obtain hsame | ⟨range, hr, hm, _⟩ := ha.byte pos (by omega)
      case inl => rw [hb pos, hsame, hbyte]
      case inr => exact absurd (hf.covered range pos hr hm hp) hd

-- The snapshot has been applied as a whole.
structure Applied (disk : DiskFile) (snapshot : WritebackSnapshot) (disk' : DiskFile) : Prop extends
    Applying disk snapshot disk' where
  size : disk'.size = max (min disk.size snapshot.cut) snapshot.rangeStop
  stored : ∀ range pos, snapshot.range = some range → range.Mem pos →
    placed range.start snapshot.data pos = some (disk'.byte pos)

theorem Flying.landed (hf : cached.Flying disk snapshot) (h : cached.Coherent disk)
    (ha : Applied disk snapshot disk') : cached.Landed disk' snapshot := by
  have hb := hf.byte_eq h ha.toApplying
  have hct := WritebackSnapshot.cut_le snapshot
  have hrs := hf.rangeStop_le
  have hsize := ha.size
  refine ⟨hf.dirty, Nat.le_trans hf.persisted hct, fun he => ?_⟩
  have hs := hf.same he
  have hts := hs.size
  refine ⟨⟨hs.size, hs.truncateTo, hs.fullDirty, fun range pos hr hm => ?_, hs.commit⟩, by omega, fun hc => ?_,
    fun range pos hr hm => ?_⟩
  · rw [hb pos]
    exact hs.data range pos hr hm
  · have := hf.commit hc
    omega
  · have hstored := ha.stored range pos hr hm
    rw [hs.data range pos hr hm] at hstored
    have := hm.right
    simp only [WritebackSnapshot.rangeStop, hr, Option.elim] at hsize
    exact ⟨by omega, (hb pos).trans (Option.some.inj hstored) |>.symm⟩

theorem truncateForSnapshot_spec (h : disk.NoHoles) (snapshot : WritebackSnapshot) :
    (disk.truncateForSnapshot snapshot).NoHoles ∧
      (disk.truncateForSnapshot snapshot).size = min disk.size snapshot.cut ∧
      ∀ pos < min disk.size snapshot.cut, (disk.truncateForSnapshot snapshot).byte pos = disk.byte pos := by
  simp only [DiskFile.truncateForSnapshot]
  split
  case isTrue hlt =>
    refine ⟨h.truncateInode (Nat.le_of_lt hlt), ?_, fun pos hp => DiskFile.byte_truncateInode (by omega)⟩
    rw [DiskFile.truncateInode_size]
    omega
  case isFalse hge => exact ⟨h, by omega, fun _ _ => rfl⟩

theorem mem_of_placed {range : Span} {data : List UInt8} {byte : UInt8} (hl : data.length = range.stop - range.start)
    (hn : range.start < range.stop) (h : placed range.start data pos = some byte) : range.Mem pos := by
  have := mt placed_of_not_mem (by rw [h]; simp)
  exact ⟨by omega, by omega⟩

theorem placed_of_take {offset n : Nat} {data : List UInt8} {byte : UInt8}
    (h : placed offset (data.take n) pos = some byte) : placed offset data pos = some byte := by
  simp only [placed] at h ⊢
  split
  case isTrue hle =>
    rw [if_pos hle, List.getElem?_take] at h
    split at h
    case isTrue => exact h
    case isFalse => cases h
  case isFalse hnle => simp [hnle] at h

-- Setting the size again does nothing.
theorem commitSnapshot_snd (oldSize : Nat) (h : snapshot.commitSize → snapshot.targetLen ≤ disk.size) :
    (disk.commitSnapshot snapshot oldSize).snd = disk := by
  have hn : ¬(snapshot.commitSize ∧ snapshot.targetLen > disk.size) := by
    intro ⟨hc, hlt⟩
    have := h hc
    omega
  simp only [DiskFile.commitSnapshot, if_neg hn]
  split <;> rfl

-- What applying a snapshot makes of the disk.
def ApplySpec (disk : DiskFile) (snapshot : WritebackSnapshot) : Except SysErrNo Unit × DiskFile → Prop
  | (.ok (), disk')   => Applied disk snapshot disk'
  | (.error _, disk') => Applying disk snapshot disk'

theorem ApplySpec.of_applied {result : Except SysErrNo Unit × DiskFile} (h : Applied disk snapshot result.snd) :
    ApplySpec disk snapshot result := by
  match result with
  | (.ok (), _)   => exact h
  | (.error _, _) => exact h.toApplying

theorem Flying.apply (hf : cached.Flying disk snapshot) (h : cached.Coherent disk) {outcome : DiskOutcome}
    (ho : outcome.stored) : ApplySpec disk snapshot (disk.applyWritebackSnapshot snapshot outcome) := by
  have ⟨hn, hsize, hbyte⟩ := truncateForSnapshot_spec h.noHoles snapshot
  have hbound := h.bound
  simp only [DiskFile.applyWritebackSnapshot]
  cases hr : snapshot.range
  case none =>
    have hs : snapshot.rangeStop = 0 := by simp [WritebackSnapshot.rangeStop, hr]
    dsimp only
    apply ApplySpec.of_applied
    rw [commitSnapshot_snd]
    · exact ⟨⟨hn, by omega, by omega, by omega, fun pos hp => .inl (hbyte pos hp)⟩, by omega, by simp [hr]⟩
    · intro hc
      have := hf.commit hc
      omega
  case some range =>
    have ⟨hstop, hlen, hstart⟩ := hf.range range hr
    have hne := range.nonempty
    have hrs : snapshot.rangeStop = range.stop := by simp [WritebackSnapshot.rangeStop, hr]
    have hw : DiskFile.WriteSpec _ range.start snapshot.data _ := DiskFile.writeAt_spec hn (by omega) ho
    dsimp only
    cases he : (disk.truncateForSnapshot snapshot).writeAt outcome range.start snapshot.data
    case mk result written =>
      rw [he] at hw
      cases result
      case error err =>
        refine ⟨hw.noHoles, ?_, ?_, ?_, fun pos hp => ?_⟩
        · rw [hw.size]; omega
        · rw [hw.size]; omega
        · rw [hw.size]; omega
        · obtain hb | hb := hw.byte pos (by omega)
          case inl => exact .inl (hb.trans (hbyte pos hp))
          case inr => exact .inr ⟨range, hr, mem_of_placed hlen hne hb, hb⟩
      case ok n =>
        have hws := hw.size
        have hle := hw.le
        have ha : Applying disk snapshot written := by
          refine ⟨hw.noHoles, hw.bound (by omega), by omega, by omega, fun pos hp => ?_⟩
          have hb := hw.byte pos (by omega)
          cases hpl : placed range.start (snapshot.data.take n) pos
          case none => exact .inl (by rw [hb, hpl, Option.getD_none, hbyte pos hp])
          case some byte =>
            have hpl' : placed range.start snapshot.data pos = some (written.byte pos) := by
              rw [hb, hpl]
              exact placed_of_take hpl
            exact .inr ⟨range, hr, mem_of_placed hlen hne hpl', hpl'⟩
        dsimp only
        split
        case isTrue => exact ha
        case isFalse hfull =>
          simp only [ne_eq, not_not] at hfull
          apply ApplySpec.of_applied
          rw [commitSnapshot_snd]
          · refine ⟨ha, by omega, fun range' pos hr' hm => ?_⟩
            cases hr.symm.trans hr'
            have ⟨h₁, h₂⟩ := hm
            have hb := hw.byte pos (by omega)
            rw [hfull, List.take_length] at hb
            rw [hb, placed_of_mem (by omega) (by omega)]
            rfl
          · intro hc
            have := hf.commit hc
            omega

theorem covers_completed (range : Option Span) (ranges : List Span) :
    Span.Covers (range.elim ranges (Span.subtract · ranges)) pos ↔
      Span.Covers ranges pos ∧ ∀ r, range = some r → ¬r.Mem pos := by
  cases range
  case none => simp
  case some r => simp [Span.covers_subtract]

theorem sorted_completed (range : Option Span) {ranges : List Span} (h : Span.Sorted ranges) :
    Span.Sorted (range.elim ranges (Span.subtract · ranges)) := by
  cases range
  case none => exact h
  case some r => exact Span.sorted_subtract h

-- More of the disk has become the file's, and the disk has the same bytes there.
theorem byte_setPersisted {persistedSize : Nat} (hle : cached.persistedSize ≤ persistedSize)
    (h : ∀ pos < persistedSize, cached.persistedSize ≤ pos → disk.byte pos = cached.byte disk pos) (pos : Nat) :
    ({ cached with persistedSize } : CachedRegularFile).byte disk pos = cached.byte disk pos := by
  by_cases hp : cached.persistedSize ≤ pos ∧ pos < persistedSize
  case neg =>
    have he : pos < persistedSize ↔ pos < cached.persistedSize := by omega
    simp only [byte, he]
  case pos =>
    have hb := h pos hp.right hp.left
    rw [← hb]
    simp only [byte] at hb ⊢
    cases hd : cached.dense
    case some => simpa [hd] using hb.symm
    case none =>
      cases hpage : cached.pages (pos / pageSize)
      case some => simpa [hd, hpage] using hb.symm
      case none => simp [hp.right]

-- The range of the snapshot is clean, and the pending truncation is done.
theorem Coherent.completed (h : cached.Coherent disk) (hs : cached.Same disk snapshot) (hd : disk.size ≤ cached.size)
    (hp : cached.persistedSize ≤ snapshot.targetLen)
    (hb : ∀ range pos, snapshot.range = some range → range.Mem pos →
      pos < disk.size ∧ disk.byte pos = cached.byte disk pos)
    {dirty : PageCacheDirtyModel}
    (hr : dirty.ranges = snapshot.range.elim cached.dirty.ranges (Span.subtract · cached.dirty.ranges))
    (hf : dirty.fullDirty = false) :
    let finished : CachedRegularFile := { cached with
      truncateTo := none, dirty
      persistedSize := if dirty.dataDirty then min cached.persistedSize snapshot.targetLen else snapshot.targetLen }
    finished.Coherent disk ∧ ∀ pos, finished.byte disk pos = cached.byte disk pos := by
  have hfull := hs.fullDirty
  have hsize := hs.size
  have hpd := h.persisted
  have hps := h.persisted_le
  have hclean (pos : Nat) (hpos : pos < cached.size) (hn : ¬Span.Covers dirty.ranges pos) :
      pos < disk.size ∧ disk.byte pos = cached.byte disk pos := by
    rw [hr, covers_completed, not_and] at hn
    by_cases hc : Span.Covers cached.dirty.ranges pos
    case pos =>
      have ⟨range, he⟩ := Classical.not_forall.mp (hn hc)
      simp only [Classical.not_imp, not_not] at he
      exact hb range pos he.left he.right
    case neg =>
      have ⟨hk, hbyte⟩ := h.clean pos hpos (by simp [DirtyAt, hfull, hc])
      exact ⟨Nat.lt_of_lt_of_le hk (Nat.min_le_left _ _), hbyte⟩
  -- If nothing is dirty any more, the disk has the whole file.
  have hall (hn : ¬dirty.dataDirty) : disk.size = cached.size := by
    have he : dirty.ranges = [] := by
      simp only [PageCacheDirtyModel.dataDirty, Bool.not_eq_true, Bool.or_eq_false_iff, Bool.not_eq_false',
        List.isEmpty_iff] at hn
      exact hn.right
    by_contra hne
    have := (hclean disk.size (by omega) (by simp [he])).left
    omega
  have hbyte : ∀ pos, ({ cached with
      truncateTo := none, dirty
      persistedSize := if dirty.dataDirty then min cached.persistedSize snapshot.targetLen else snapshot.targetLen } :
        CachedRegularFile).byte disk pos = cached.byte disk pos := by
    split
    case isTrue =>
      rw [Nat.min_eq_left hp]
      exact fun _ => rfl
    case isFalse hn =>
      apply byte_setPersisted (by omega)
      intro pos hpos _
      have he : dirty.ranges = [] := by
        simp only [PageCacheDirtyModel.dataDirty, Bool.not_eq_true, Bool.or_eq_false_iff, Bool.not_eq_false',
          List.isEmpty_iff] at hn
        exact hn.right
      exact (hclean pos (by omega) (by simp [he])).right
  have hle : (if dirty.dataDirty then min cached.persistedSize snapshot.targetLen else snapshot.targetLen) ≤
      disk.size := by
    split
    case isTrue => omega
    case isFalse hn =>
      have := hall hn
      omega
  refine ⟨⟨⟨⟨h.dense, hle, h.bound⟩, ?_, fun pos hpos => (hbyte pos).trans (h.zero pos hpos)⟩, h.noHoles, ?_, ?_, ?_, ?_,
    nofun, ?_, fun hn => ⟨hall hn, rfl⟩, fun hn => absurd hn (by simp [hf]), h.evicted⟩, hbyte⟩
  · dsimp only
    split <;> omega
  · rw [hr]
    exact sorted_completed _ h.sorted
  · intro pos hpos
    rw [hr, covers_completed] at hpos
    exact h.within pos hpos.left
  · simpa [kept] using hle
  · simpa [kept] using hd
  · intro pos hpos hn
    simp only [DirtyAt, hf, Bool.false_eq_true, false_or] at hn
    rw [hbyte pos]
    simpa [kept] using hclean pos hpos hn

theorem Landed.finish (hl : cached.Landed disk snapshot) (h : cached.Coherent disk) :
    (cached.finishWritebackSnapshot snapshot (.ok ())).Coherent disk ∧
      ∀ pos, (cached.finishWritebackSnapshot snapshot (.ok ())).byte disk pos = cached.byte disk pos := by
  have hp := hl.persisted
  rw [finishWritebackSnapshot, if_neg (by simp [h.evicted])]
  dsimp only
  by_cases hs : cached.dirty.seq = snapshot.dirtySeq
  case neg =>
    have hf : cached.dirty.finishWriteback snapshot.dirtySeq snapshot.range snapshot.commitSize =
        (true, { cached.dirty with writeback := .dirty }) := by
      simp [PageCacheDirtyModel.finishWriteback, hs, hl.dirty]
    have hn : ¬(cached.dirty.seq = snapshot.dirtySeq ∧ cached.truncateTo = snapshot.truncateTo) := fun h => hs h.left
    rw [hf, if_neg hn]
    simp only [if_true, Nat.min_eq_left hp]
    exact ⟨h.setDirty _ rfl rfl rfl, fun _ => rfl⟩
  case pos =>
    have ⟨hsame, hdisk, _, hrange⟩ := hl.same hs
    have ⟨dirty, hf, hr, hfull⟩ := cached.dirty.finishWriteback_same snapshot.range snapshot.commitSize hs
    have ht : cached.dirty.seq = snapshot.dirtySeq ∧ cached.truncateTo = snapshot.truncateTo := ⟨hs, hsame.truncateTo⟩
    rw [hf, if_pos ht]
    exact h.completed hsame hdisk hp hrange hr hfull

end CachedRegularFile

end WllOs.Fs
