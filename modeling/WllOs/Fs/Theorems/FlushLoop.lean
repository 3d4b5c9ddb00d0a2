import WllOs.Fs.FlushLoop
import WllOs.Fs.Theorems.Flush

namespace WllOs.Fs

namespace DiskFile

variable {file : DiskFile} {offset len : Nat} {data : List UInt8} {outcome : DiskOutcome}

-- A write has the blocks that it needs.
theorem blockCount_le_available (ho : offset ≤ file.size) :
    blockCount len ≤ file.availableBlocks offset (file.toAllocate offset len) := by
  have hn : blockCount len ≤ blockCount (offset + len) - offset / pageSize := by
    have he := blockCount_le.mp (Nat.le_refl (blockCount (offset + len)))
    have hd := Nat.div_mul_le_self offset pageSize
    refine blockCount_le.mpr ?_
    rw [Nat.mul_comm, Nat.mul_sub, Nat.mul_comm, Nat.mul_comm pageSize]
    omega
  have hf := div_le_fileBlocks ho
  simp only [availableBlocks, toAllocate]
  split <;> omega

theorem toAllocate_le : file.toAllocate offset len ≤ blockCount len + 1 := by
  have hn : blockCount (offset + len) ≤ blockCount len + 1 + offset / pageSize := by
    have he := blockCount_le.mp (Nat.le_refl (blockCount len))
    have hd := Nat.lt_div_mul_add pageSize_pos (a := offset)
    refine blockCount_le.mpr ?_
    rw [Nat.add_mul, Nat.add_mul]
    omega
  simp only [toAllocate]
  split <;> omega

-- A device that works writes all.
theorem writeAt_ok (ho : offset ≤ file.size) (hm : offset + data.length ≤ EXT4_MAX_FILE_SIZE) {supply : List Page}
    (hs : outcome.supply = .ok supply) (hl : blockCount data.length + 1 ≤ supply.length) :
    (file.writeAt outcome offset data).fst = .ok data.length := by
  simp only [writeAt]
  split
  case isTrue he => simp [List.isEmpty_iff.mp he]
  case isFalse =>
    have hw : file.toAllocate offset data.length ≤ supply.length := Nat.le_trans toAllocate_le hl
    rw [hs]
    obtain ⟨supply', he, htake⟩ : ∃ supply', (if file.toAllocate offset data.length = 0 then
        (.ok [] : Except SysErrNo (List Page)) else .ok supply) = .ok supply' ∧
          (supply'.take (file.toAllocate offset data.length)).length = file.toAllocate offset data.length := by
      by_cases hz : file.toAllocate offset data.length = 0
      case pos => exact ⟨[], if_pos hz, by simp [hz]⟩
      case neg => exact ⟨supply, if_neg hz, by simp [hw]⟩
    rw [he]
    dsimp only
    rw [if_pos htake, htake, writeBlocks, if_neg (Nat.not_lt.mpr (blockCount_le_available ho))]
    dsimp only
    split
    case isTrue => rfl
    case isFalse => rw [if_neg (Nat.not_lt.mpr hm)]

end DiskFile

namespace CachedRegularFile

variable {disk : DiskFile} {reads : Nat → ReadOutcome} {cached : CachedRegularFile} {current count len start : Nat}

-- A copy through reads that lose no block is the copy, unless it fails.
theorem copyPageVia_eq (hb : ∀ page, reads page ≠ .blockLost) (hc : 0 < count) :
    cached.copyPageVia disk reads current count = cached.copyPage disk current count ∨
      (∃ page, reads page = .inodeLost) ∧ cached.copyPageVia disk reads current count = .error .EINVAL := by
  simp only [copyPageVia, copyPage]
  cases cached.pages (current / pageSize)
  case some => exact .inl rfl
  case none =>
    dsimp only
    by_cases hp : current < cached.persistedSize
    case neg => exact .inl (by rw [if_neg hp, if_neg hp])
    case pos =>
      rw [if_pos hp, if_pos hp]
      cases hr : reads (current / pageSize)
      case done => exact .inl rfl
      case blockLost => exact absurd hr (hb _)
      case inodeLost =>
        have hn : min count (cached.persistedSize - current) ≠ 0 := by omega
        exact .inr ⟨⟨_, hr⟩, by simp [DiskFile.readVia, hn]⟩

theorem copyPagesVia_eq (hb : ∀ page, reads page ≠ .blockLost) (current len : Nat) :
    cached.copyPagesVia disk reads current len = cached.copyPages disk current len ∨
      (∃ page, reads page = .inodeLost) ∧ cached.copyPagesVia disk reads current len = .error .EINVAL := by
  induction len using Nat.strong_induction_on generalizing current
  case h len hi =>
    rw [copyPagesVia, copyPages]
    by_cases hl : len = 0
    case pos => exact .inl (by rw [if_pos hl, if_pos hl])
    case neg =>
      have := Nat.mod_lt current pageSize_pos
      have hc : 0 < min len (pageSize - current % pageSize) := by omega
      rw [if_neg hl, if_neg hl]
      dsimp only
      generalize min len (pageSize - current % pageSize) = count at hc
      cases @copyPageVia_eq disk reads cached current count hb hc
      case inr h => exact .inr ⟨h.left, by rw [h.right]⟩
      case inl h =>
        rw [h]
        cases cached.copyPage disk current count
        case error => exact .inl rfl
        case ok bytes =>
          dsimp only
          cases hi (len - count) (by omega) (current + count)
          case inl h => exact .inl (by rw [h])
          case inr h => exact .inr ⟨h.left, by rw [h.right]; rfl⟩

theorem copyCachedRangeVia_eq (hb : ∀ page, reads page ≠ .blockLost) :
    cached.copyCachedRangeVia disk reads start len = cached.copyCachedRange disk start len ∨
      (∃ page, reads page = .inodeLost) ∧ cached.copyCachedRangeVia disk reads start len = .error .EINVAL := by
  simp only [copyCachedRangeVia, copyCachedRange]
  cases cached.dense
  case some => exact .inl rfl
  case none => exact copyPagesVia_eq hb start len

-- The file while a snapshot of it is taken.
def began (cached : CachedRegularFile) : PageCacheDirtyModel :=
  { cached.expandFullDirty with writeback := .writeback }

-- A snapshot that is taken through such reads is the snapshot, or there is none.
theorem takeWritebackSnapshotVia_eq (hb : ∀ page, reads page ≠ .blockLost) :
    cached.takeWritebackSnapshotVia disk reads = cached.takeWritebackSnapshot disk ∨
      (∃ page, reads page = .inodeLost) ∧ cached.isDirty ∧ cached.dirty.lastError = none ∧
        cached.takeWritebackSnapshotVia disk reads =
          (.failed .EINVAL, { cached with dirty := cached.began.failWriteback .EINVAL }) := by
  simp only [takeWritebackSnapshotVia, takeWritebackSnapshot]
  split
  case isTrue => exact .inl rfl
  case isFalse =>
    split
    case isTrue => exact .inl rfl
    case isFalse hdirty =>
      cases hl : cached.dirty.lastError
      case some => exact .inl rfl
      case none =>
        dsimp only
        cases hd : cached.expandFullDirty.beginWriteback
        case none => exact .inl rfl
        case some began =>
          obtain ⟨dirtySeq, dirty⟩ := began
          have hbegan : dirty = cached.began := by
            simp only [PageCacheDirtyModel.beginWriteback] at hd
            split at hd <;> cases hd
            rfl
          dsimp only
          cases dirty.ranges.head?.bind cluster
          case none => exact .inl rfl
          case some range =>
            simp only [Option.elim]
            cases @copyCachedRangeVia_eq disk reads { cached with dirty } (range.stop - range.start) range.start hb
            case inl h => exact .inl (h ▸ rfl)
            case inr h => exact .inr ⟨h.left, by simpa using hdirty, trivial, by rw [h.right, hbegan]⟩

theorem cluster_isSome {range : Span} (h : range.start < EXT4_MAX_FILE_SIZE) :
    ∃ completed, cluster range = some completed ∧ completed.stop - completed.start ≤ WRITEBACK_CLUSTER_BYTES := by
  have hm : EXT4_MAX_FILE_SIZE + WRITEBACK_CLUSTER_BYTES ≤ Usize.max := by
    simp [EXT4_MAX_FILE_SIZE, WRITEBACK_CLUSTER_BYTES, Usize.max]
  have hc : 0 < WRITEBACK_CLUSTER_BYTES := by simp [WRITEBACK_CLUSTER_BYTES]
  have hn := range.nonempty
  have hs : Usize.saturatingAdd range.start WRITEBACK_CLUSTER_BYTES = range.start + WRITEBACK_CLUSTER_BYTES :=
    Usize.saturatingAdd_eq (by omega)
  cases hr : cluster range
  case none =>
    have hcover := @Span.covers_ofBounds range.start range.start
      (min range.stop (Usize.saturatingAdd range.start WRITEBACK_CLUSTER_BYTES))
    rw [cluster] at hr
    rw [hr, hs] at hcover
    simp only [Option.toList_none, Span.covers_nil, false_iff] at hcover
    omega
  case some completed =>
    obtain ⟨h₁, h₂⟩ := Span.mem_ofBounds.mp hr
    rw [hs] at h₂
    exact ⟨completed, rfl, by omega⟩

-- The first of the ranges has a cluster.
theorem Coherent.head_cluster (h : cached.Coherent disk) (hs : cached.size ≤ EXT4_MAX_FILE_SIZE) {first : Span}
    (hf : cached.dirty.ranges.head? = some first) :
    ∃ completed, cluster first = some completed ∧ completed.stop - completed.start ≤ WRITEBACK_CLUSTER_BYTES := by
  have hwithin := h.within first.start ⟨first, List.mem_of_mem_head? hf, Nat.le_refl _, first.nonempty⟩
  exact cluster_isSome (Nat.lt_of_lt_of_le hwithin hs)

-- What a snapshot has when it is taken.
structure Taken (cached : CachedRegularFile) (snapshot : WritebackSnapshot) : Prop where
  range : snapshot.range = cached.began.ranges.head?.bind cluster
  commit : snapshot.commitSize = commitsSize snapshot.range cached.began.ranges
  target : snapshot.targetLen = cached.size

-- The file is coherent, and no snapshot of it is in flight.
structure Settled (disk : DiskFile) (cached : CachedRegularFile) : Prop where
  coherent : cached.Coherent disk
  inactive : cached.dirty.writebackActive = false

theorem Settled.isDirty (h : cached.Settled disk) : cached.isDirty = cached.dirty.dataDirty := by
  simp [CachedRegularFile.isDirty, h.coherent.evicted]

theorem Settled.take (h : cached.Settled disk) :
    ¬cached.dirty.dataDirty ∧ cached.takeWritebackSnapshot disk = (.clean, cached) ∨
      cached.dirty.dataDirty ∧ ((∃ err, cached.dirty.lastError = some err ∧
        cached.takeWritebackSnapshot disk = (.failed err, cached)) ∨
      cached.dirty.lastError = none ∧ ∃ snapshot, cached.Taken snapshot ∧
        cached.takeWritebackSnapshot disk = (.snapshot snapshot, { cached with dirty := cached.began })) := by
  obtain ⟨he, hfull, hdirty, hactive⟩ := h.coherent.expand
  rw [takeWritebackSnapshot, if_neg (by simp [h.coherent.evicted]), h.isDirty]
  split
  case isTrue hd => exact .inl ⟨hd, rfl⟩
  case isFalse hd =>
    simp only [not_not] at hd
    refine .inr ⟨hd, ?_⟩
    cases cached.dirty.lastError
    case some err => exact .inl ⟨err, rfl, rfl⟩
    case none =>
      refine .inr ⟨rfl, ?_⟩
      have hb : cached.expandFullDirty.beginWriteback = some (cached.expandFullDirty.seq, cached.began) := by
        simp [PageCacheDirtyModel.beginWriteback, hactive, h.inactive, hdirty, hd, began]
      have hw := he.setDirty cached.began rfl rfl rfl
      dsimp only
      rw [hb]
      dsimp only
      cases hr : cached.began.ranges.head?.bind cluster
      case none => exact ⟨_, ⟨hr.symm, rfl, rfl⟩, rfl⟩
      case some range =>
        obtain ⟨first, hfirst, hc⟩ := Option.bind_eq_some_iff.mp hr
        have hstop := (cluster_spec hc).right
        have hne := range.nonempty
        have hin := hw.within (range.stop - 1)
          ⟨first, List.mem_of_mem_head? hfirst, by have := (cluster_spec hc).left; omega, by omega⟩
        rw [Option.elim, copyCachedRange_eq hw.toReadable (by dsimp only at hin ⊢; omega)]
        exact ⟨_, ⟨hr.symm, rfl, rfl⟩, rfl⟩

variable {snapshot : WritebackSnapshot} {outcome : DiskOutcome}

theorem commitSnapshot_fst (oldSize : Nat) (h : disk.size ≤ snapshot.targetLen) :
    (disk.commitSnapshot snapshot oldSize).fst = .ok () := by
  have hle : (if snapshot.commitSize ∧ snapshot.targetLen > disk.size then
      { disk with size := snapshot.targetLen } else disk).size ≤ snapshot.targetLen := by
    split
    case isTrue => exact Nat.le_refl _
    case isFalse => exact h
  rw [DiskFile.commitSnapshot, if_neg]
  rintro ⟨hzero, _, hne⟩
  rw [hzero] at hle
  exact hne (by simpa [hzero] using hle)

-- A device that works applies the snapshot.
theorem Flying.apply_ok (hf : cached.Flying disk snapshot) (hc : cached.Coherent disk)
    (hs : cached.size ≤ EXT4_MAX_FILE_SIZE) (ht : snapshot.targetLen = cached.size)
    (hl : ∀ range, snapshot.range = some range → range.stop - range.start ≤ WRITEBACK_CLUSTER_BYTES)
    (hstored : outcome.stored) {supply : List Page} (ho : outcome.supply = .ok supply)
    (hn : DiskFile.blockCount WRITEBACK_CLUSTER_BYTES + 1 ≤ supply.length) :
    (disk.applyWritebackSnapshot snapshot outcome).fst = .ok () := by
  obtain ⟨hnh, hsize, _⟩ := truncateForSnapshot_spec hc.noHoles snapshot
  have hcut := WritebackSnapshot.cut_le snapshot
  simp only [DiskFile.applyWritebackSnapshot]
  cases hr : snapshot.range
  case none => exact commitSnapshot_fst _ (by omega)
  case some range =>
    obtain ⟨hstop, hlen, hstart⟩ := hf.range range hr
    have hne := range.nonempty
    have hle := hl range hr
    have hb : DiskFile.blockCount snapshot.data.length ≤ DiskFile.blockCount WRITEBACK_CLUSTER_BYTES := by
      refine DiskFile.blockCount_le.mpr (Nat.le_trans ?_ (DiskFile.blockCount_le.mp (Nat.le_refl _)))
      omega
    have hw := @DiskFile.writeAt_ok (disk.truncateForSnapshot snapshot) range.start snapshot.data outcome (by omega)
      (by omega) supply ho (by omega)
    have hspec : DiskFile.WriteSpec _ range.start snapshot.data _ := DiskFile.writeAt_spec hnh (by omega) hstored
    dsimp only
    cases he : (disk.truncateForSnapshot snapshot).writeAt outcome range.start snapshot.data
    case mk result written =>
      rw [he] at hw hspec
      subst hw
      have hws := hspec.size
      dsimp only
      rw [if_neg (by simp)]
      exact commitSnapshot_fst _ (by omega)

-- What finishing a snapshot makes of what is dirty, when nothing has happened to the file since.
theorem finish_dirty (he : cached.evicted = false) (hs : cached.dirty.seq = snapshot.dirtySeq) :
    let dirty := (cached.finishWritebackSnapshot snapshot (.ok ())).dirty
    dirty.ranges = snapshot.range.elim cached.dirty.ranges (Span.subtract · cached.dirty.ranges) ∧
      dirty.fullDirty = false ∧ dirty.sizeDirty = (cached.dirty.sizeDirty && !snapshot.commitSize) ∧
      dirty.lastError = none ∧ dirty.writebackActive = false := by
  have hi := cached.dirty.finishWriteback_inactive snapshot.dirtySeq snapshot.range snapshot.commitSize
  simp only [finishWritebackSnapshot, he, Bool.false_eq_true, if_false, PageCacheDirtyModel.finishWriteback, hs,
    if_true] at hi ⊢
  exact ⟨trivial, trivial, trivial, trivial, by simpa using hi⟩

theorem finish_size : (cached.finishWritebackSnapshot snapshot (.ok ())).size = cached.size := by
  simp only [finishWritebackSnapshot]
  split <;> rfl

end CachedRegularFile

namespace CachedInode

open CachedRegularFile

variable {inode inode' : CachedInode} {round : FlushRound} {rounds : Nat → FlushRound}

-- How much is dirty.
def pending (inode : CachedInode) : Nat :=
  ((List.range inode.cached.size).filter fun pos => inode.cached.DirtyAt pos).length +
    if inode.cached.dirty.dataDirty then 1 else 0

-- The file is the one that it was.
structure Keeps (inode inode' : CachedInode) : Prop where
  settled : inode'.cached.Settled inode'.disk
  size : inode'.cached.size = inode.cached.size
  byte : ∀ pos, inode'.cached.byte inode'.disk pos = inode.cached.byte inode.disk pos

theorem Keeps.trans {inode'' : CachedInode} (h : inode.Keeps inode') (h' : inode'.Keeps inode'') :
    inode.Keeps inode'' :=
  ⟨h'.settled, h'.size.trans h.size, fun pos => (h'.byte pos).trans (h.byte pos)⟩

-- Only the state of the writeback is different, or a range for all of the file has been made.
theorem Keeps.setDirty (h : inode.cached.Settled inode.disk) (dirty : PageCacheDirtyModel)
    (hr : dirty.ranges = inode.cached.dirty.ranges) (hf : dirty.fullDirty = inode.cached.dirty.fullDirty)
    (hs : dirty.sizeDirty = inode.cached.dirty.sizeDirty) (ha : dirty.writebackActive = false) :
    inode.Keeps ⟨inode.disk, { inode.cached with dirty }⟩ :=
  ⟨⟨h.coherent.setDirty dirty hr hf hs, ha⟩, rfl, fun _ => rfl⟩

theorem Keeps.expand (h : inode.cached.Settled inode.disk) (dirty : PageCacheDirtyModel)
    (hr : dirty.ranges = inode.cached.expandFullDirty.ranges)
    (hf : dirty.fullDirty = inode.cached.expandFullDirty.fullDirty)
    (hs : dirty.sizeDirty = inode.cached.expandFullDirty.sizeDirty) (ha : dirty.writebackActive = false) :
    inode.Keeps ⟨inode.disk, { inode.cached with dirty }⟩ :=
  ⟨⟨h.coherent.expand.left.setDirty dirty hr hf hs, ha⟩, rfl, fun _ => rfl⟩

theorem Keeps.retried (h : inode.cached.Settled inode.disk) (err : SysErrNo) :
    inode.Keeps ⟨inode.disk,
      { inode.cached with dirty := { inode.cached.began.failWriteback err with lastError := none } }⟩ :=
  .expand h _ rfl rfl rfl (Bool.eq_false_iff.mpr (PageCacheDirtyModel.settled_inactive rfl))

theorem pending_congr {disk : DiskFile} {cached : CachedRegularFile} (hs : cached.size = inode.cached.size)
    (hd : ∀ pos < cached.size, cached.DirtyAt pos ↔ inode.cached.DirtyAt pos)
    (hb : cached.dirty.dataDirty = inode.cached.dirty.dataDirty) :
    (CachedInode.mk disk cached).pending = inode.pending := by
  have hf : (List.range cached.size).filter (fun pos => cached.DirtyAt pos) =
      (List.range inode.cached.size).filter fun pos => inode.cached.DirtyAt pos := by
    rw [← hs]
    refine List.filter_congr fun pos hm => ?_
    rw [decide_eq_decide]
    exact hd pos (List.mem_range.mp hm)
  simp only [pending, hf, hb]

theorem dirtyAt_began (hf : inode.cached.expandFullDirty.fullDirty = false) {pos : Nat} (hp : pos < inode.cached.size) :
    Span.Covers inode.cached.began.ranges pos ↔ inode.cached.DirtyAt pos := by
  rw [← dirtyAt_expand inode.cached hp]
  simp [DirtyAt, began, hf]

-- A snapshot takes from what is dirty.
theorem pending_finish (h : inode.cached.Settled inode.disk) (hs : inode.cached.size ≤ EXT4_MAX_FILE_SIZE)
    (hd : inode.cached.dirty.dataDirty) {snapshot : WritebackSnapshot} (ht : inode.cached.Taken snapshot)
    (hseq : inode.cached.began.seq = snapshot.dirtySeq) (disk : DiskFile) :
    (CachedInode.mk disk
      ({ inode.cached with dirty := inode.cached.began }.finishWritebackSnapshot snapshot (.ok ()))).pending <
        inode.pending := by
  obtain ⟨hcoherent, hfull, _, _⟩ := h.coherent.expand
  have hfinish := @finish_dirty { inode.cached with dirty := inode.cached.began } snapshot h.coherent.evicted hseq
  have hsize := @finish_size { inode.cached with dirty := inode.cached.began } snapshot
  generalize { inode.cached with dirty := inode.cached.began }.finishWritebackSnapshot snapshot (.ok ()) = finished
    at hfinish hsize
  obtain ⟨hranges, hfull', hsizeDirty, _, _⟩ := hfinish
  have hdirty (pos : Nat) : finished.DirtyAt pos ↔ Span.Covers inode.cached.began.ranges pos ∧
      ∀ r, snapshot.range = some r → ¬r.Mem pos := by
    rw [DirtyAt, hfull', hranges, covers_completed]
    simp
  simp only [pending, hsize, hd, if_true]
  cases hr : snapshot.range
  case none =>
    have hn : inode.cached.began.ranges = [] := by
      have htaken := ht.range
      rw [hr] at htaken
      cases hc : inode.cached.began.ranges
      case nil => rfl
      case cons first rest =>
        have hfirst : inode.cached.expandFullDirty.ranges.head? = some first := congrArg List.head? hc
        obtain ⟨completed, hsome, _⟩ := hcoherent.head_cluster hs hfirst
        simp [hc, hsome] at htaken
    have hcommit : snapshot.commitSize = true := by
      rw [ht.commit, hr, hn]
      rfl
    have hclean : finished.dirty.dataDirty = false := by
      rw [hr] at hranges
      simp [PageCacheDirtyModel.dataDirty, hranges, hfull', hsizeDirty, hcommit, hn]
    have hnone : (List.range inode.cached.size).filter (fun pos => finished.DirtyAt pos) = [] := by
      simp [hdirty, hn]
    simp [hnone, hclean]
  case some range =>
    have htaken := ht.range
    rw [hr] at htaken
    obtain ⟨first, hfirst, hc⟩ := Option.bind_eq_some_iff.mp htaken.symm
    have hne := range.nonempty
    have hcovers : Span.Covers inode.cached.began.ranges range.start :=
      ⟨first, List.mem_of_mem_head? hfirst, by have := (cluster_spec hc).left; omega,
        by have := (cluster_spec hc).right; omega⟩
    have hwithin := hcoherent.within _ hcovers
    have hlt := @Lists.length_filter_lt _ (List.range inode.cached.size) range.start (fun pos => finished.DirtyAt pos)
      (fun pos => inode.cached.DirtyAt pos)
      (fun pos hp hn => decide_eq_true ((dirtyAt_began hfull (List.mem_range.mp hp)).mp
        ((hdirty pos).mp (of_decide_eq_true hn)).left))
      (List.mem_range.mpr hwithin) (decide_eq_true ((dirtyAt_began hfull hwithin).mp hcovers))
      (fun hn => ((hdirty _).mp (of_decide_eq_true hn)).right range hr ⟨Nat.le_refl _, hne⟩)
    split <;> omega

-- An error that has been acknowledged is not there any more.
theorem flushRound_failed {err : SysErrNo} {failed : CachedRegularFile}
    (ht : inode.cached.takeWritebackSnapshotVia inode.disk round.reads = (.failed err, failed))
    (he : failed.dirty.lastError = some err) (hd : failed.isDirty) :
    inode.flushRound round =
      (none, ⟨inode.disk, { failed with dirty := { failed.dirty with lastError := none } }⟩) := by
  have hdirty : { failed with dirty := { failed.dirty with lastError := none } }.isDirty := hd
  simp only [flushRound, ht, acknowledge, he, if_true, hdirty]

-- Finishing a snapshot keeps the file.
theorem Keeps.failed (hev : inode.cached.evicted = false) {snapshot : WritebackSnapshot} {disk : DiskFile}
    (hf : { inode.cached with dirty := inode.cached.began }.Flying inode.disk snapshot)
    (hc : { inode.cached with dirty := inode.cached.began }.Coherent inode.disk)
    (ha : Applying inode.disk snapshot disk) (err : SysErrNo) :
    inode.Keeps ⟨disk,
      { inode.cached with dirty := inode.cached.began }.finishWritebackSnapshot snapshot (.error err)⟩ := by
  rw [finishWritebackSnapshot, if_neg (by simp [hev])]
  have hi := PageCacheDirtyModel.settled_inactive
    (show (inode.cached.began.failWriteback err).writeback = (inode.cached.began.failWriteback err).settled from rfl)
  exact ⟨⟨(hf.coherent hc ha).setDirty _ rfl rfl rfl, Bool.eq_false_iff.mpr hi⟩, rfl, hf.byte_eq hc ha⟩

theorem Keeps.finished (hev : inode.cached.evicted = false) {snapshot : WritebackSnapshot} {disk : DiskFile}
    (hf : { inode.cached with dirty := inode.cached.began }.Flying inode.disk snapshot)
    (hc : { inode.cached with dirty := inode.cached.began }.Coherent inode.disk)
    (hseq : inode.cached.began.seq = snapshot.dirtySeq) (ha : Applied inode.disk snapshot disk) :
    inode.Keeps ⟨disk,
      { inode.cached with dirty := inode.cached.began }.finishWritebackSnapshot snapshot (.ok ())⟩ := by
  have hfinish := @finish_dirty { inode.cached with dirty := inode.cached.began } snapshot hev hseq
  have ⟨hcoherent, hbyte⟩ := (hf.landed hc ha).finish (hf.coherent hc ha.toApplying)
  exact ⟨⟨hcoherent, hfinish.right.right.right.right⟩, finish_size,
    fun pos => (hbyte pos).trans (hf.byte_eq hc ha.toApplying pos)⟩

theorem isDirty_failed (h : inode.cached.Settled inode.disk) (hd : inode.cached.dirty.dataDirty) (err : SysErrNo) :
    { inode.cached with dirty := inode.cached.began.failWriteback err }.isDirty := by
  have ⟨_, _, hdirty, _⟩ := h.coherent.expand
  simp only [CachedRegularFile.isDirty, h.coherent.evicted, Bool.not_false, Bool.true_and]
  exact hdirty.trans hd

-- What a time round the loop comes to. The error is one that the device has made.
def RoundSpec (inode : CachedInode) (round : FlushRound) : Option (Except SysErrNo Unit) × CachedInode → Prop
  | (some (.ok ()), inode')   => inode' = inode ∧ ¬inode.cached.dirty.dataDirty
  | (some (.error _), inode') => inode.Keeps inode' ∧ ¬round.Works
  | (none, inode')            => inode.Keeps inode' ∧ inode'.cached.dirty.lastError = none ∧
      (inode'.pending < inode.pending ∨ inode'.pending = inode.pending ∧
        (inode.cached.dirty.lastError ≠ none ∨ ∃ page, round.reads page = .inodeLost))

theorem flushRound_spec (h : inode.cached.Settled inode.disk) (hs : inode.cached.size ≤ EXT4_MAX_FILE_SIZE)
    (hb : ∀ page, round.reads page ≠ .blockLost) {outcome : DiskOutcome} (hr : round.apply = .disk outcome)
    (ho : outcome.stored) : inode.RoundSpec round (inode.flushRound round) := by
  have hev := h.coherent.evicted
  obtain htake | ⟨hlost, hd, hnone, htake⟩ := @takeWritebackSnapshotVia_eq inode.disk round.reads inode.cached hb
  case inr =>
    -- The copy has failed. That is acknowledged at once, and the file is as dirty as it was.
    have ⟨_, hfull, hdirty, _⟩ := h.coherent.expand
    rw [h.isDirty] at hd
    have hfd : inode.cached.began.dataDirty = true := hdirty.trans hd
    rw [flushRound_failed htake rfl (isDirty_failed h hd .EINVAL)]
    refine ⟨.retried h .EINVAL, rfl, .inr ⟨pending_congr rfl (fun pos hp => ?_) (hfd.trans hd.symm), .inr hlost⟩⟩
    exact dirtyAt_expand inode.cached hp
  case inl =>
    obtain ⟨hd, hclean⟩ | ⟨hd, ⟨err, he, hfailed⟩ | ⟨_, snapshot, htaken, hsnapshot⟩⟩ := h.take
    case inl =>
      simp only [flushRound, htake, hclean]
      exact ⟨rfl, hd⟩
    case inr.inl =>
      rw [flushRound_failed (htake.trans hfailed) he (by rw [h.isDirty]; exact hd)]
      refine ⟨.setDirty h _ rfl rfl rfl h.inactive, rfl, .inr ⟨pending_congr rfl (fun _ _ => Iff.rfl) rfl, .inl ?_⟩⟩
      rw [he]
      nofun
    case inr.inr =>
      have hspec := h.coherent.take
      rw [hsnapshot] at hspec
      have ⟨_, _, hcoherent, hflying, hseq, _⟩ := hspec
      have happly := hflying.apply hcoherent ho
      have hok := fun hl => @Flying.apply_ok _ _ _ outcome hflying hcoherent hs htaken.target hl ho
      simp only [flushRound, htake, hsnapshot, hr, applyWritebackSnapshot]
      cases he : inode.disk.applyWritebackSnapshot snapshot outcome
      case mk result disk =>
        rw [he] at happly hok
        cases result
        case error err =>
          refine ⟨.failed hev hflying hcoherent happly err, fun hworks => ?_⟩
          have ⟨outcome', supply, hr', _, hsupply, hlen⟩ := hworks.apply
          cases hr.symm.trans hr'
          have := hok (fun range hrange => ?_) hsupply hlen
          · cases this
          · rw [htaken.range] at hrange
            have ⟨first, hfirst, hc⟩ := Option.bind_eq_some_iff.mp hrange
            have ⟨completed, hsome, hle⟩ := hcoherent.head_cluster hs hfirst
            cases hc.symm.trans hsome
            exact hle
        case ok =>
          have hfinish := @finish_dirty { inode.cached with dirty := inode.cached.began } snapshot hev hseq
          exact ⟨.finished hev hflying hcoherent hseq happly, hfinish.right.right.right.left,
            .inl (pending_finish h hs hd htaken hseq disk)⟩

theorem Keeps.refl (h : inode.cached.Settled inode.disk) : inode.Keeps inode :=
  ⟨h, rfl, fun _ => rfl⟩

theorem Keeps.flushed (h : inode.Keeps inode') (hd : ¬inode'.cached.dirty.dataDirty) : inode.Flushed inode'.disk := by
  have ⟨hsize, hbyte⟩ := h.settled.coherent.onDisk hd
  refine ⟨hsize.trans h.size, fun pos hp => ?_⟩
  rw [hbyte pos (by rwa [h.size]), h.byte]

variable {fuel k : Nat} {result : Except SysErrNo Unit}

theorem flushRound_dependable (hd : Dependable rounds) (h : inode.cached.Settled inode.disk)
    (hs : inode.cached.size ≤ EXT4_MAX_FILE_SIZE) (k : Nat) :
    inode.RoundSpec (rounds k) (inode.flushRound (rounds k)) := by
  have ⟨_, hr, ho⟩ := hd.stored k
  exact flushRound_spec h hs (hd.blocks k) hr ho

-- What the loop returns when it does.
theorem flush_spec (hd : Dependable rounds) (h : inode.cached.Settled inode.disk)
    (hs : inode.cached.size ≤ EXT4_MAX_FILE_SIZE) (hf : inode.flush rounds fuel k = some (result, inode')) :
    inode.Keeps inode' ∧ (result = .ok () → ¬inode'.cached.dirty.dataDirty) ∧
      ∀ err, result = .error err → ∃ k, ¬(rounds k).Works := by
  induction fuel generalizing inode k
  case zero => cases hf
  case succ fuel hi =>
    have hround := flushRound_dependable hd h hs k
    rw [flush] at hf
    cases hr : inode.flushRound (rounds k)
    case mk returned next =>
      rw [hr] at hf hround
      match returned, hround with
      | some (.ok ()),    hround =>
        cases hf
        rw [hround.left]
        exact ⟨.refl h, fun _ => hround.right, nofun⟩
      | some (.error err), hround =>
        cases hf
        exact ⟨hround.left, nofun, fun _ _ => ⟨k, hround.right⟩⟩
      | none,             hround =>
        have hkeeps := hround.left
        have ⟨hk, hspec⟩ := hi hkeeps.settled (by rw [hkeeps.size]; exact hs) hf
        exact ⟨hkeeps.trans hk, hspec⟩

-- Each time round, something gets written, an error is acknowledged, or the time from which on all is read is nearer.
theorem flush_returns (hd : Dependable rounds) (h : inode.cached.Settled inode.disk)
    (hs : inode.cached.size ≤ EXT4_MAX_FILE_SIZE) : ∃ fuel result, inode.flush rounds fuel k = some result := by
  have ⟨last, hlast⟩ := hd.inode
  generalize hn : last - k + inode.pending + (if inode.cached.dirty.lastError = none then 0 else 1) = n
  induction n using Nat.strong_induction_on generalizing inode k
  case h n hi =>
    have hround := flushRound_dependable hd h hs k
    cases hr : inode.flushRound (rounds k)
    case mk returned next =>
      rw [hr] at hround
      cases returned
      case some result => exact ⟨1, (result, next), by simp [flush, hr]⟩
      case none =>
        have ⟨hkeeps, hnone, hless⟩ := hround
        have hlt : last - (k + 1) + next.pending + (if next.cached.dirty.lastError = none then 0 else 1) < n := by
          rw [if_pos hnone]
          obtain hless | ⟨heq, herror | ⟨page, hlost⟩⟩ := hless
          case inl => omega
          case inr.inl =>
            rw [if_neg herror] at hn
            omega
          case inr.inr =>
            have hk : k < last := Nat.lt_of_not_le fun hle => hlast k hle page hlost
            omega
        have ⟨fuel, result, hf⟩ := hi _ hlt hkeeps.settled (by rw [hkeeps.size]; exact hs) rfl
        exact ⟨fuel + 1, result, by simp [flush, hr, hf]⟩

theorem dependable_of_works (h : ∀ k, (rounds k).Works) : Dependable rounds where
  stored k := by
    have ⟨outcome, _, hr, ho, _⟩ := (h k).apply
    exact ⟨outcome, hr, ho⟩
  blocks k page := by
    rw [(h k).reads]
    nofun
  inode := ⟨0, fun k _ page => by rw [(h k).reads]; nofun⟩

theorem flush_sound (h : inode.cached.Settled inode.disk) (hs : inode.cached.size ≤ EXT4_MAX_FILE_SIZE)
    (hd : Dependable rounds) : inode.FlushSound rounds where
  returns := flush_returns hd h hs
  ok fuel inode' hf := by
    have ⟨hkeeps, hok, _⟩ := flush_spec hd h hs hf
    exact hkeeps.flushed (hok rfl)
  dirty fuel err inode' hf := by
    have ⟨hkeeps, _, _⟩ := flush_spec hd h hs hf
    have hc := hkeeps.settled.coherent
    refine ⟨?_, fun pos hp => ?_⟩
    · by_cases hdirty : inode'.cached.dirty.dataDirty
      case pos => exact .inr hdirty
      case neg => exact .inl ((hc.settled hdirty).left.trans hkeeps.size)
    · by_cases hat : inode'.cached.DirtyAt pos
      case pos => exact .inl hat
      case neg =>
        have ⟨hk, hbyte⟩ := hc.clean pos (by rwa [hkeeps.size]) hat
        exact .inr ⟨Nat.lt_of_lt_of_le hk (Nat.min_le_left _ _), by rw [hbyte, hkeeps.byte]⟩
  later fuel err inode' hf rounds' hworks := by
    have ⟨hkeeps, _, _⟩ := flush_spec hd h hs hf
    have hs' : inode'.cached.size ≤ EXT4_MAX_FILE_SIZE := by rwa [hkeeps.size]
    have hd' := dependable_of_works hworks
    have ⟨fuel', ⟨result, inode''⟩, hf'⟩ := @flush_returns _ _ 0 hd' hkeeps.settled hs'
    have ⟨hkeeps', hok, herror⟩ := flush_spec hd' hkeeps.settled hs' hf'
    cases result
    case ok => exact ⟨fuel', inode'', hf', (hkeeps.trans hkeeps').flushed (hok rfl)⟩
    case error err =>
      have ⟨k, hk⟩ := herror err rfl
      exact absurd (hworks k) hk

-- A byte has been written to an empty file.
def oneByte : CachedInode where
  disk := (Writeback.empty.write 0 0 [7]).disk
  cached := (Writeback.empty.write 0 0 [7]).cached

def writeRound (stored : Bool) : FlushRound where
  reads _ := .done
  apply := .disk ⟨.ok [.zero], stored⟩
  busy := .ok ()

theorem oneByte_settled : oneByte.cached.Settled oneByte.disk := by
  have hopened := Writeback.Opened.inv Writeback.empty_opened ⟨nofun, Nat.le_refl _⟩ (Nat.zero_le _)
  have hi := @Writeback.Inv.write _ hopened 0 0 [7] (Nat.zero_le _) nofun
  refine ⟨hi.coherent, ?_⟩
  rw [oneByte, hi.active]
  decide_cbv

theorem oneByte_size : oneByte.cached.size ≤ EXT4_MAX_FILE_SIZE := by
  decide_cbv

theorem writeRound_dependable : Dependable fun _ => writeRound true where
  stored _ := ⟨_, rfl, rfl⟩
  blocks _ _ := nofun
  inode := ⟨0, nofun⟩

theorem flush_sound_oneByte : oneByte.FlushSound fun _ => writeRound true :=
  flush_sound oneByte_settled oneByte_size writeRound_dependable

-- A write that the device has lost is taken for done.
theorem flush_hides_failure : ¬∀ (inode : CachedInode) (rounds : Nat → FlushRound),
    inode.cached.Settled inode.disk → inode.cached.size ≤ EXT4_MAX_FILE_SIZE → inode.FlushSound rounds := by
  intro h
  have hs := h oneByte (fun _ => writeRound false) oneByte_settled oneByte_size
  have hrun : ((oneByte.flush (fun _ => writeRound false) 2 0).bind fun returned =>
      returned.fst.toOption.map fun _ => returned.snd.disk.byte 0) = some 0 := by
    decide_cbv
  obtain ⟨⟨result, inode'⟩, hf, hmap⟩ := Option.bind_eq_some_iff.mp hrun
  cases result
  case error => cases hmap
  case ok =>
    have hbyte := (hs.ok _ _ hf).byte 0 (by decide_cbv)
    have hzero : inode'.disk.byte 0 = 0 := Option.some.inj hmap
    rw [hzero] at hbyte
    revert hbyte
    decide_cbv
end CachedInode

end WllOs.Fs
