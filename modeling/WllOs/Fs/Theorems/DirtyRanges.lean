import WllOs.Fs.DirtyRanges
import WllOs.Fs.Theorems.Writeback

namespace WllOs.Fs

open PageCacheDirtyModel

namespace CachedRegularFile

variable {disk : DiskFile} {cached cached' : CachedRegularFile} {result : WritebackSnapshotResult}

-- What taking a snapshot does to the ranges, however it comes out.
structure RangesTaken (cached : CachedRegularFile) (result : WritebackSnapshotResult) (cached' : CachedRegularFile) :
    Prop where
  size : cached'.size = cached.size
  seq : cached'.dirty.seq = cached.dirty.seq
  ranges : (cached'.dirty.ranges = cached.dirty.ranges ∧ cached'.dirty.fullDirty = cached.dirty.fullDirty) ∨
    (cached'.dirty.ranges = cached.expandFullDirty.ranges ∧ cached'.dirty.fullDirty = cached.expandFullDirty.fullDirty)
  snapshot : ∀ snapshot, result = .snapshot snapshot → snapshot.dirtySeq = cached.dirty.seq

theorem expandFullDirty_seq : cached.expandFullDirty.seq = cached.dirty.seq := by
  simp only [expandFullDirty]
  split <;> rfl

theorem beginWriteback_some {model dirty : PageCacheDirtyModel} {seq : Nat}
    (h : model.beginWriteback = some (seq, dirty)) :
    seq = model.seq ∧ dirty = { model with writeback := .writeback } := by
  simp only [beginWriteback] at h
  split at h
  case isTrue => cases h
  case isFalse =>
    cases h
    exact ⟨rfl, rfl⟩

theorem takeWritebackSnapshot_taken (h : cached.takeWritebackSnapshot disk = (result, cached')) :
    cached.RangesTaken result cached' := by
  have hsame (result : WritebackSnapshotResult) (hr : ∀ snapshot, result ≠ .snapshot snapshot) :
      cached.RangesTaken result cached :=
    ⟨rfl, rfl, .inl ⟨rfl, rfl⟩, fun snapshot he => absurd he (hr snapshot)⟩
  simp only [takeWritebackSnapshot] at h
  split at h
  case isTrue =>
    cases h
    exact hsame _ nofun
  case isFalse =>
    split at h
    case isTrue =>
      cases h
      exact hsame _ nofun
    case isFalse =>
      split at h
      case h_1 =>
        cases h
        exact hsame _ nofun
      case h_2 =>
        split at h
        case h_1 =>
          cases h
          exact ⟨rfl, expandFullDirty_seq, .inr ⟨rfl, rfl⟩, nofun⟩
        case h_2 seq dirty hb =>
          have ⟨hseq, hdirty⟩ := beginWriteback_some hb
          subst hseq hdirty
          split at h
          case h_1 =>
            cases h
            exact ⟨rfl, expandFullDirty_seq, .inr ⟨rfl, rfl⟩, nofun⟩
          case h_2 =>
            cases h
            refine ⟨rfl, expandFullDirty_seq, .inr ⟨rfl, rfl⟩, fun snapshot he => ?_⟩
            cases he
            exact expandFullDirty_seq

theorem expandFullDirty_spec (h : Span.Sorted cached.dirty.ranges) :
    Span.Sorted cached.expandFullDirty.ranges ∧ cached.expandFullDirty.fullDirty = false ∧
      ∀ pos, Span.Covers cached.expandFullDirty.ranges pos ↔
        if cached.dirty.fullDirty then pos < cached.size else Span.Covers cached.dirty.ranges pos := by
  simp only [expandFullDirty]
  split
  case isTrue hf =>
    refine ⟨?_, rfl, fun pos => ?_⟩
    · cases Span.ofBounds 0 cached.size <;> simp [Span.Sorted]
    · rw [Span.covers_ofBounds]
      exact and_iff_right (Nat.zero_le _)
  case isFalse hf => exact ⟨h, by simpa using hf, fun _ => Iff.rfl⟩

end CachedRegularFile

namespace PageCacheDirtyModel

variable {model : PageCacheDirtyModel} {pos : Nat}

theorem finishWriteback_seq (seq : Nat) (completed : Option Span) (committedSize : Bool) :
    (model.finishWriteback seq completed committedSize).snd.seq = model.seq := by
  simp only [finishWriteback]
  split <;> rfl

-- The completed range is taken out if the number is still that of the snapshot.
theorem finishWriteback_spec (h : Span.Sorted model.ranges) (seq : Nat) (completed : Option Span)
    (committedSize : Bool) :
    Span.Sorted (model.finishWriteback seq completed committedSize).snd.ranges ∧
      ∀ pos, Span.Covers (model.finishWriteback seq completed committedSize).snd.ranges pos ↔
        Span.Covers model.ranges pos ∧ (model.seq = seq → ¬∃ range, completed = some range ∧ range.Mem pos) := by
  simp only [finishWriteback]
  split
  case isFalse hs => simp [h, hs]
  case isTrue hs =>
    cases completed
    case none => simp [h]
    case some range =>
      refine ⟨Span.sorted_subtract h, fun pos => ?_⟩
      simp [Span.covers_subtract, hs]

end PageCacheDirtyModel

namespace DirtyRun

variable {run : DirtyRun}

-- The number of a file and of its snapshots, when writes are counted from a number on.
structure Counted (first : Nat) (run : DirtyRun) : Prop where
  seq : run.cached.dirty.seq = (first + run.writes) % 2 ^ 64
  taken : ∀ taken ∈ run.snapshots,
    taken.writes ≤ run.writes ∧ taken.snapshot.dirtySeq = (first + taken.writes) % 2 ^ 64

structure Inv (first : Nat) (run : DirtyRun) : Prop extends Counted first run where
  sorted : Span.Sorted run.cached.dirty.ranges
  covers : ∀ pos, Span.Covers run.cached.dirty.ranges pos ↔ pos ∈ run.bytes
  within : ∀ pos ∈ run.bytes, pos < run.cached.size

variable {first : Nat}

theorem Counted.seq_eq_iff (h : run.Counted first) {taken : DirtySnapshot} (ht : taken ∈ run.snapshots) :
    run.cached.dirty.seq = taken.snapshot.dirtySeq ↔ run.NoWriteSince taken := by
  have ⟨hle, hseq⟩ := h.taken taken ht
  rw [h.seq, hseq, NoWriteSince]
  omega

theorem Counted.noteWrite (h : run.Counted first) : (run.step .noteWrite).Counted first := by
  constructor
  case seq =>
    have := h.seq
    simp only [step, withDirty, PageCacheDirtyModel.noteWrite, Usize.wrappingAdd, Usize.max]
    omega
  case taken =>
    intro taken ht
    have ⟨hle, hseq⟩ := h.taken taken ht
    exact ⟨Nat.le_succ_of_le hle, hseq⟩

-- A marking or clipping of the ranges keeps the number.
theorem Inv.marked (h : run.Inv first) {dirty : PageCacheDirtyModel} {set : Nat → Prop} {bytes : Set Nat} {size : Nat}
    (hm : run.cached.dirty.Marked set dirty) (hs : ∀ pos, set pos ↔ pos ∈ bytes) (hb : ∀ pos ∈ bytes, pos < size) :
    Inv first { run with cached := { run.cached with dirty, size }, bytes } where
  seq := hm.seq.trans h.seq
  taken := h.taken
  sorted := hm.sorted
  covers pos := (hm.covers pos).trans (hs pos)
  within := hb

theorem Inv.mark (h : run.Inv first) (start stop : Nat) : (run.step (.mark start stop)).Inv first := by
  apply h.marked (markDirtyRange_spec h.sorted run.cached.size start stop)
  case hs =>
    intro pos
    rw [h.covers]
    rfl
  case hb =>
    intro pos hp
    cases hp
    case inl hp => exact h.within pos hp
    case inr hp => exact (lt_min_iff.mp hp.right).right

theorem Inv.clip (h : run.Inv first) (len : Nat) : (run.step (.clip len)).Inv first := by
  apply h.marked (clipDirtyRanges_spec h.sorted len)
  case hs =>
    intro pos
    rw [h.covers]
    rfl
  case hb => exact fun pos hp => h.within pos hp.left

theorem Inv.truncate (h : run.Inv first) (len : Nat) : (run.step (.truncate len)).Inv first := by
  apply h.marked (clipDirtyRanges_spec h.sorted len)
  case hs =>
    intro pos
    rw [h.covers]
    rfl
  case hb => exact fun pos hp => lt_min (h.within pos hp.left) hp.right

theorem Inv.take (h : run.Inv first) (disk : DiskFile) : (run.step (.take disk)).Inv first := by
  simp only [step, DirtyRun.take]
  cases hr : run.cached.takeWritebackSnapshot disk
  case mk result cached =>
    have ht := CachedRegularFile.takeWritebackSnapshot_taken hr
    have ⟨hsorted, hfull, hcovers⟩ := CachedRegularFile.expandFullDirty_spec h.sorted
    constructor
    case toCounted =>
      constructor
      case seq => exact ht.seq.trans h.seq
      case taken =>
        intro taken hmem
        cases result
        case snapshot snapshot =>
          cases List.mem_append.mp hmem
          case inl hmem => exact h.taken taken hmem
          case inr hmem =>
            cases List.mem_singleton.mp hmem
            exact ⟨le_rfl, (ht.snapshot snapshot rfl).trans h.seq⟩
        all_goals exact h.taken taken hmem
    all_goals
      obtain ⟨hranges, hf⟩ | ⟨hranges, hf⟩ := ht.ranges
    case sorted.inl => exact hranges ▸ h.sorted
    case sorted.inr => exact hranges ▸ hsorted
    case covers.inl => simp [hranges, hf, h.covers]
    case covers.inr =>
      intro pos
      rw [hranges, hcovers, hf, hfull]
      cases run.cached.dirty.fullDirty <;> simp [h.covers]
    case within.inl => simpa [hf, ht.size] using h.within
    case within.inr =>
      rw [hf, hfull, ht.size]
      cases run.cached.dirty.fullDirty
      case true => simp
      case false => simpa using h.within

theorem Inv.finish (h : run.Inv first) {taken : DirtySnapshot} (ht : taken ∈ run.snapshots) :
    (run.finish taken).Inv first := by
  have ⟨hsorted, hcovers⟩ := finishWriteback_spec h.sorted taken.snapshot.dirtySeq taken.snapshot.range
    taken.snapshot.commitSize
  have hbytes (pos : Nat) : pos ∈ (run.finish taken).bytes ↔
      pos ∈ run.bytes ∧ (run.NoWriteSince taken → pos ∉ taken.bytes) := by
    simp only [DirtyRun.finish]
    split
    case isTrue hn => simp [hn]
    case isFalse hn => simp [hn]
  constructor
  case toCounted => exact ⟨(finishWriteback_seq _ _ _).trans h.seq, h.taken⟩
  case sorted => exact hsorted
  case covers =>
    intro pos
    rw [hbytes, ← h.covers, ← h.seq_eq_iff ht]
    exact hcovers pos
  case within => exact fun pos hp => h.within pos ((hbytes pos).mp hp).left

theorem Inv.step (h : run.Inv first) (call : DirtyCall) : (run.step call).Inv first := by
  cases call
  case mark start stop => exact h.mark start stop
  case clip len => exact h.clip len
  case truncate len => exact h.truncate len
  case take disk => exact h.take disk
  case extend size =>
    exact ⟨⟨h.seq, h.taken⟩, h.sorted, h.covers, fun pos hp => lt_max_of_lt_left (h.within pos hp)⟩
  case noteWrite => exact ⟨h.noteWrite, h.sorted, h.covers, h.within⟩
  case finish index =>
    simp only [DirtyRun.step]
    split
    case h_1 ht => exact h.finish (List.mem_of_getElem? ht)
    case h_2 => exact h

theorem Inv.runCalls (h : run.Inv first) (calls : List DirtyCall) : (run.runCalls calls).Inv first := by
  induction calls generalizing run
  case nil => exact h
  case cons call calls hi => exact hi (h.step call)

theorem inv_opened (size persistedSize : Nat) (dense : Option (List UInt8)) (wholeFile : Bool) :
    (opened size persistedSize dense wholeFile).Inv wholeFile.toNat := by
  constructor
  case toCounted => cases wholeFile <;> exact ⟨rfl, nofun⟩
  case sorted => cases wholeFile <;> exact List.Pairwise.nil
  case covers => cases wholeFile <;> simp [opened, CachedRegularFile.new, clean, dirtyWholeFile]
  case within => exact nofun

theorem Inv.normalForm (h : run.Inv first) : run.NormalForm := by
  constructor
  case nonempty => exact fun range _ => range.nonempty
  case separated => exact h.sorted
  case covers => exact h.covers
  case within =>
    intro range hr
    have := range.nonempty
    have := h.within (range.stop - 1) ((h.covers _).mp ⟨range, hr, by omega, by omega⟩)
    omega
  case unique =>
    intro ranges hs hc
    exact Span.eq_of_covers hs h.sorted fun pos => (hc pos).trans (h.covers pos).symm
  case shortcut =>
    intro new ranges he
    have ⟨hs, hc⟩ := extendLast_spec h.sorted he
    exact ⟨Span.eq_of_covers hs (Span.sorted_insert h.sorted) fun pos => (hc pos).trans Span.covers_insert.symm, hs⟩

-- The ranges have the bytes that the calls have left dirty, in their only normal form.
theorem runCalls_normalForm (size persistedSize : Nat) (dense : Option (List UInt8)) (wholeFile : Bool)
    (calls : List DirtyCall) : ((opened size persistedSize dense wholeFile).runCalls calls).NormalForm :=
  ((inv_opened size persistedSize dense wholeFile).runCalls calls).normalForm

end DirtyRun

end WllOs.Fs
