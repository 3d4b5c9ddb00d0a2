import WllOs.Fs.Theorems.Writeback

namespace WllOs.Fs

-- What is known of the file while a snapshot of it is in flight.
def InFlight.Tracks (disk : DiskFile) (cached : CachedRegularFile) (flight : InFlight) : Prop :=
  match flight.result with
  | none            => cached.Flying disk flight.snapshot
  | some (.ok ())   => cached.Landed disk flight.snapshot
  | some (.error _) => True

namespace CachedRegularFile

variable {disk : DiskFile} {cached cached' : CachedRegularFile} {flight : InFlight} {snapshot : WritebackSnapshot}

theorem Modified.tracks (hm : cached.Modified cached') (hs : cached'.dirty.seq ≠ flight.snapshot.dirtySeq)
    (h : flight.Tracks disk cached) : flight.Tracks disk cached' := by
  match flight, h with
  | ⟨_, none, _⟩,            h => exact Flying.modified h hm hs
  | ⟨_, some (.ok ()), _⟩,   h => exact Landed.modified h hm hs
  | ⟨_, some (.error _), _⟩, _ => trivial

theorem Holds.tracks (hh : cached.Holds disk (cached.byte disk) cached') (h : flight.Tracks disk cached) :
    flight.Tracks disk cached' := by
  match flight, h with
  | ⟨_, none, _⟩,            h => exact Flying.holds h hh
  | ⟨_, some (.ok ()), _⟩,   h => exact Landed.holds h hh
  | ⟨_, some (.error _), _⟩, _ => trivial

theorem Holds.modified {promoted : CachedRegularFile} (hh : cached.Holds disk (cached.byte disk) promoted)
    (hm : promoted.Modified cached') : cached.Modified cached' := by
  have ⟨⟨_, _, he⟩, _, hf⟩ := hh
  subst he
  exact ⟨hm.dirty, hm.seq, hm.active, hm.persisted, fun pos hp => hf pos (hm.fromDisk pos hp), hm.clean, hm.truncateTo⟩

-- The range of a file that was dirty as a whole is dirty still.
theorem Same.expand (h : cached.Same disk snapshot) : cached.expandFullDirty = cached.dirty :=
  if_neg (by simp [h.fullDirty])

theorem dirtyAt_expand (cached : CachedRegularFile) {pos : Nat} (hp : pos < cached.size) :
    ({ cached with dirty := cached.expandFullDirty } : CachedRegularFile).DirtyAt pos ↔ cached.DirtyAt pos := by
  by_cases hf : cached.dirty.fullDirty
  case neg =>
    have he : cached.expandFullDirty = cached.dirty := if_neg hf
    rw [he]
  case pos =>
    have he : cached.expandFullDirty =
      { cached.dirty with ranges := (Span.ofBounds 0 cached.size).toList, fullDirty := false } := if_pos hf
    simp [DirtyAt, he, hf, Span.covers_ofBounds, hp]

theorem expand_seq : cached.expandFullDirty.seq = cached.dirty.seq := by
  simp only [expandFullDirty]
  split <;> rfl

theorem Coherent.expand_tracks (hc : cached.Coherent disk) (h : flight.Tracks disk cached) :
    flight.Tracks disk { cached with dirty := cached.expandFullDirty } := by
  have ⟨_, _, hd, _⟩ := hc.expand
  match flight, h with
  | ⟨_, some (.error _), _⟩, _ => trivial
  | ⟨_, some (.ok ()), _⟩,   h =>
    refine ⟨hd.trans h.dirty, h.persisted, fun he => ?_⟩
    have hs := h.same (expand_seq.symm.trans he)
    rw [hs.left.expand]
    exact hs
  | ⟨_, none, _⟩,            h =>
    refine ⟨hd.trans h.dirty, h.range, ?_, ?_, h.persisted, h.fromDisk, h.target, h.commit, fun he => ?_⟩
    · exact fun range pos hr hp hl => (dirtyAt_expand cached hl).mpr (h.covered range pos hr hp hl)
    · exact fun pos hl hn => h.kept pos hl (mt (dirtyAt_expand cached hl).mpr hn)
    · have hs := h.same (expand_seq.symm.trans he)
      rw [hs.expand]
      exact hs

-- The vector of a file that has just been cached.
theorem dense_new {dense : Option (List UInt8)} (hb : disk.size ≤ EXT_MAX_SIZE)
    (hd : ∀ bytes, dense = some bytes → disk.extentAwareReadAt 0 disk.size = .ok bytes) (bytes : List UInt8)
    (he : dense = some bytes) : bytes = (List.range disk.size).map disk.byte := by
  have hread := hd bytes he
  rw [DiskFile.extentAwareReadAt_eq hb (by omega)] at hread
  simpa using (Except.ok.inj hread).symm

theorem byte_new {dense : Option (List UInt8)} (hb : disk.size ≤ EXT_MAX_SIZE)
    (hd : ∀ bytes, dense = some bytes → disk.extentAwareReadAt 0 disk.size = .ok bytes) (pos : Nat) :
    (CachedRegularFile.new disk.size disk.size dense .clean).byte disk pos =
      if pos < disk.size then disk.byte pos else 0 := by
  simp only [byte, CachedRegularFile.new]
  cases he : dense
  case none => rfl
  case some bytes =>
    rw [dense_new hb hd bytes he]
    exact Buffer.getD_map_range disk.byte

theorem coherent_new (dense : Option (List UInt8)) (hn : disk.NoHoles) (hb : disk.size ≤ EXT_MAX_SIZE)
    (hd : ∀ bytes, dense = some bytes → disk.extentAwareReadAt 0 disk.size = .ok bytes) :
    (CachedRegularFile.new disk.size disk.size dense .clean).Coherent disk := by
  have hbyte := byte_new hb hd
  have hkept : (CachedRegularFile.new disk.size disk.size dense .clean).kept disk = disk.size := Nat.min_self _
  refine ⟨⟨⟨fun bytes he => ?_, Nat.le_refl _, hb⟩, Nat.le_refl _, fun pos hp => ?_⟩, hn, .nil, nofun, ?_, ?_, nofun, ?_,
    fun _ => ⟨rfl, rfl⟩, nofun, rfl⟩
  · rw [dense_new hb hd bytes he]
    simp [CachedRegularFile.new]
  · exact (hbyte pos).trans (if_neg (Nat.not_lt.mpr hp))
  · exact Nat.le_of_eq hkept.symm
  · exact Nat.le_of_eq hkept
  · intro pos hp _
    rw [hbyte, hkept]
    exact ⟨hp, (if_pos hp).symm⟩

theorem coherent_dirtyWholeFile (hn : disk.NoHoles) (hb : disk.size ≤ EXT_MAX_SIZE) (hs : disk.size = 0) :
    (CachedRegularFile.new 0 0 (some []) .dirtyWholeFile).Coherent disk := by
  refine ⟨⟨⟨?_, Nat.zero_le _, hb⟩, Nat.le_refl _, ?_⟩, hn, .nil, ?_, Nat.zero_le _, ?_, nofun, nofun, ?_, fun _ => rfl,
    rfl⟩
  · simp [CachedRegularFile.new]
  · simp [CachedRegularFile.new, CachedRegularFile.byte]
  · simp [CachedRegularFile.new, PageCacheDirtyModel.dirtyWholeFile]
  · simp [CachedRegularFile.new, CachedRegularFile.kept, hs]
  · simp [CachedRegularFile.new, PageCacheDirtyModel.dirtyWholeFile, PageCacheDirtyModel.dataDirty]

end CachedRegularFile

namespace Writeback

open CachedRegularFile

variable {state state' : Writeback}

structure Inv (state : Writeback) : Prop where
  coherent : state.cached.Coherent state.disk
  active : state.cached.dirty.writebackActive = state.inFlight.isSome
  tracks : ∀ flight, state.inFlight = some flight → flight.Tracks state.disk state.cached

theorem Inv.change (h : state.Inv) {cached : CachedRegularFile} (hc : cached.Coherent state.disk)
    (ha : cached.dirty.writebackActive = state.cached.dirty.writebackActive)
    (ht : ∀ flight, state.inFlight = some flight → flight.Tracks state.disk state.cached →
      flight.Tracks state.disk cached) : { state with cached }.Inv :=
  ⟨hc, ha.trans h.active, fun flight hf => ht flight hf (h.tracks flight hf)⟩

theorem Inv.setCall (h : state.Inv) (call : Nat) (status : FlushCall) : (state.setCall call status).Inv :=
  ⟨h.coherent, h.active, h.tracks⟩

theorem Inv.setCalls (h : state.Inv) (call : Option Nat) (status : FlushCall) : (state.setCalls call status).Inv := by
  cases call
  case none => exact h
  case some call => exact h.setCall call status

theorem Inv.holds (h : state.Inv) {cached : CachedRegularFile}
    (hh : state.cached.Holds state.disk (state.cached.byte state.disk) cached) (hw : cached.WellFormed state.disk) :
    { state with cached }.Inv := by
  have ha : cached.dirty = state.cached.dirty := by
    have ⟨⟨_, _, he⟩, _, _⟩ := hh
    rw [he]
  exact h.change (h.coherent.holds hh hw) (by rw [ha]) fun _ _ => hh.tracks

theorem Inv.modified (h : state.Inv) {cached : CachedRegularFile} (hm : state.cached.Modified cached)
    (hc : cached.Coherent state.disk) (hs : state.FreshSeq) : { state with cached }.Inv := by
  apply h.change hc hm.active
  intro flight hf
  apply hm.tracks
  rw [hm.seq]
  exact hs flight hf

theorem Inv.write (h : state.Inv) {frames offset : Nat} {buf : List UInt8} (ho : offset ≤ state.cached.size)
    (hs : state.FreshSeq) : (state.write frames offset buf).Inv := by
  simp only [Writeback.write]
  split
  case isTrue => exact h
  case isFalse hn =>
    have hw := cachedRegularWrite_spec h.coherent.toWellFormed frames offset buf
    cases hr : state.cached.cachedRegularWrite state.disk frames offset buf
    case mk result cached =>
      rw [hr] at hw
      cases result
      case error => exact h.holds hw.left hw.right
      case ok n =>
        have ⟨hle, hpos, hwf, stored, hh, he⟩ := hw
        have hn : 0 < n := hpos fun he => hn (.inl (by simp [he]))
        subst he
        apply h.modified _ _ hs
        · exact Modified.written h.coherent.sorted ho hn hh
        · exact h.coherent.written ho (by simp [hle]) hh hwf hn

theorem Inv.resize (h : state.Inv) {frames newLen : Nat} (hs : state.FreshSeq) : (state.resize frames newLen).Inv := by
  simp only [Writeback.resize]
  split
  case isTrue => exact h
  case isFalse =>
    have hr := cachedRegularResize_spec h.coherent.toWellFormed frames newLen
    cases he : state.cached.cachedRegularResize frames newLen
    case mk result cached =>
      rw [he] at hr
      cases result
      case error => exact h.holds hr.left hr.right
      case ok =>
        have ⟨_, _, promoted, hh, hp, hc⟩ := hr
        have hcoherent := h.coherent.holds hh hp
        subst hc
        exact h.modified (hh.modified (.setSize hcoherent.sorted newLen)) (hcoherent.setSize newLen) hs

-- Only the state of the writeback is different, and it is as active as before.
theorem Inv.setWriteback (h : state.Inv) {status : PageCacheWritebackState} {lastError : Option SysErrNo}
    (ha : { state.cached.dirty with writeback := status, lastError }.writebackActive =
      state.cached.dirty.writebackActive) :
    { state with cached.dirty := { state.cached.dirty with writeback := status, lastError } }.Inv := by
  apply h.change (h.coherent.setDirty { state.cached.dirty with writeback := status, lastError } rfl rfl rfl) ha
  intro flight hf ht
  match flight, ht with
  | ⟨_, some (.error _), _⟩, _ => trivial
  | ⟨_, some (.ok ()), _⟩,   h =>
    refine ⟨h.dirty, h.persisted, fun he => ?_⟩
    have ⟨hs, hr⟩ := h.same he
    exact ⟨⟨hs.size, hs.truncateTo, hs.fullDirty, hs.data, hs.commit⟩, hr⟩
  | ⟨_, none, _⟩,            h =>
    refine ⟨h.dirty, h.range, h.covered, h.kept, h.persisted, h.fromDisk, h.target, h.commit, fun he => ?_⟩
    have hs := h.same he
    exact ⟨hs.size, hs.truncateTo, hs.fullDirty, hs.data, hs.commit⟩

theorem Inv.queue (h : state.Inv) : { state with cached.dirty := state.cached.dirty.noteQueued }.Inv := by
  by_cases hq : state.cached.dirty.dataDirty ∧
      (state.cached.dirty.writeback = .dirty ∨ state.cached.dirty.writeback = .queued)
  case neg =>
    rw [PageCacheDirtyModel.noteQueued, if_neg hq]
    exact h
  case pos =>
    rw [PageCacheDirtyModel.noteQueued, if_pos hq]
    apply h.setWriteback
    obtain hw | hw := hq.right <;> simp [PageCacheDirtyModel.writebackActive, hw]

theorem Inv.acknowledge (h : state.Inv) (err : SysErrNo) :
    { state with cached := state.acknowledgeWritebackError err }.Inv := by
  simp only [acknowledgeWritebackError]
  split
  case isTrue => exact h.setWriteback rfl
  case isFalse => exact h

theorem Inv.take (h : state.Inv) (call : Option Nat) : (state.take call).Inv := by
  have hs := h.coherent.take
  simp only [Writeback.take]
  cases hr : state.cached.takeWritebackSnapshot state.disk
  case mk result cached =>
    rw [hr] at hs
    cases result
    case noCache => exact hs.elim
    case clean =>
      rw [hs.left]
      exact h.setCalls call _
    case failed =>
      rw [hs]
      exact h.setCalls call _
    case busy =>
      have ⟨_, _, _, ha⟩ := h.coherent.expand
      rw [hs.right]
      exact h.change h.coherent.expand.left ha fun _ _ => h.coherent.expand_tracks
    case snapshot snapshot =>
      have ⟨_, ha, hc, hf, _⟩ := hs
      apply Inv.setCalls
      exact ⟨hc, ha, fun flight he => by cases he; exact hf⟩

theorem Inv.finished (h : state.Inv) {snapshot : WritebackSnapshot} {result : Except SysErrNo Unit}
    {call : Option Nat} (hf : state.inFlight = some ⟨snapshot, some result, call⟩) :
    { state with cached := state.cached.finishWritebackSnapshot snapshot result, inFlight := none }.Inv := by
  have he : ¬state.cached.evicted := by simp [h.coherent.evicted]
  refine ⟨?_, ?_, nofun⟩
  · cases result
    case ok => exact (Landed.finish (h.tracks _ hf) h.coherent).left
    case error =>
      rw [finishWritebackSnapshot, if_neg he]
      exact h.coherent.setDirty _ rfl rfl rfl
  · simp only [Option.isSome_none, Bool.eq_false_iff]
    cases result
    case ok =>
      rw [finishWritebackSnapshot, if_neg he]
      exact PageCacheDirtyModel.finishWriteback_inactive _ _ _ _
    case error =>
      rw [finishWritebackSnapshot, if_neg he]
      exact PageCacheDirtyModel.settled_inactive rfl

theorem Inv.applied (h : state.Inv) {snapshot : WritebackSnapshot} {call : Option Nat} {outcome : DiskOutcome}
    (hf : state.inFlight = some ⟨snapshot, none, call⟩) (ho : outcome.stored) :
    { state with
      disk := (state.disk.applyWritebackSnapshot snapshot outcome).snd
      inFlight := some ⟨snapshot, some (state.disk.applyWritebackSnapshot snapshot outcome).fst, call⟩ }.Inv := by
  have hflying : state.cached.Flying state.disk snapshot := h.tracks _ hf
  have hs := hflying.apply h.coherent ho
  cases hr : state.disk.applyWritebackSnapshot snapshot outcome
  case mk result disk =>
    rw [hr] at hs
    have ha : state.cached.dirty.writebackActive = true := by rw [h.active, hf]; rfl
    cases result
    case ok =>
      exact ⟨hflying.coherent h.coherent hs.toApplying, ha, fun flight he => by
        cases he
        exact hflying.landed h.coherent hs⟩
    case error =>
      exact ⟨hflying.coherent h.coherent hs, ha, fun flight he => by
        cases he
        trivial⟩

theorem Inv.step (h : state.Inv) {act : WritebackAct} (ha : state.Sound act) (hs : state.step act = some state') :
    state'.Inv := by
  cases act
  case write =>
    cases hs
    exact h.write ha.left ha.right
  case resize =>
    cases hs
    exact h.resize ha
  case queue =>
    cases hs
    exact h.queue
  case flush call =>
    simp only [Writeback.step] at hs
    split at hs
    case h_1 => cases hs; exact h.setCall call _
    case h_2 => cases hs; exact h.setCall call _
    case h_3 => cases hs
  case take call =>
    cases call
    case none =>
      cases hs
      exact h.take none
    case some call =>
      simp only [Writeback.step] at hs
      split at hs
      case h_1 => cases hs; exact h.take (some call)
      case h_2 => cases hs
  case giveUp call =>
    simp only [Writeback.step] at hs
    split at hs
    case h_1 => cases hs; exact h.setCall call _
    case h_2 => cases hs
  case acknowledge call =>
    simp only [Writeback.step] at hs
    split at hs
    case h_1 err _ =>
      cases hs
      exact (h.acknowledge err).setCall call _
    case h_2 => cases hs
  case apply outcome =>
    simp only [Writeback.step] at hs
    split at hs
    case h_1 hf =>
      cases hs
      exact h.applied hf ha
    case h_2 => cases hs
  case finish =>
    simp only [Writeback.step] at hs
    split at hs
    case h_1 hf =>
      cases hs
      exact (h.finished hf).setCalls _ _
    case h_2 => cases hs

theorem Opened.inv (h : state.Opened) (hn : state.disk.NoHoles) (hb : state.disk.size ≤ EXT_MAX_SIZE) :
    state.Inv := by
  obtain ⟨hf, _, hc⟩ := h
  suffices hs : state.cached.Coherent state.disk ∧ ¬state.cached.dirty.writebackActive from
    ⟨hs.left, by simpa [hf] using hs.right, by simp [hf]⟩
  obtain ⟨dense, hc, hd⟩ | ⟨hs, hc | hc⟩ := hc
  case inl =>
    rw [hc]
    exact ⟨coherent_new dense hn hb hd, fun he => absurd he Bool.false_ne_true⟩
  case inr.inl =>
    rw [hc]
    have he : state.disk.extentAwareReadAt 0 state.disk.size = .ok [] := by simp [DiskFile.extentAwareReadAt, hs]
    have h := coherent_new (some []) hn hb fun bytes he' => by rw [he, Option.some.inj he']
    rw [hs] at h
    exact ⟨h, fun he => absurd he Bool.false_ne_true⟩
  case inr.inr =>
    rw [hc]
    exact ⟨coherent_dirtyWholeFile hn hb hs, fun he => absurd he Bool.false_ne_true⟩

theorem Run.inv {start : Writeback} (h : start.Inv) (hr : Run Sound start state) : state.Inv := by
  induction hr
  case nil => exact h
  case snoc _ ha hs ih => exact ih.step ha hs

theorem returned_of_setCalls {calls : Option Nat} {status : FlushCall} {call : Nat}
    (h : (state.setCalls calls status).calls call = .returned (.ok ())) :
    status = .returned (.ok ()) ∨ state.calls call = .returned (.ok ()) := by
  cases calls
  case none => exact .inr h
  case some other =>
    by_cases he : call = other
    case pos =>
      subst he
      exact .inl (by simpa [setCalls, setCall] using h)
    case neg => exact .inr (by simpa [setCalls, setCall, he] using h)

-- A call returns when it finds the file clean.
theorem Inv.onDisk_of_take (h : state.Inv) {caller : Option Nat} {call : Nat}
    (hr : (state.take caller).calls call = .returned (.ok ())) (hn : state.calls call ≠ .returned (.ok ())) :
    state.cached.OnDisk state.disk := by
  have hs := h.coherent.take
  simp only [Writeback.take] at hr
  cases he : state.cached.takeWritebackSnapshot state.disk
  case mk result cached =>
    rw [he] at hs hr
    cases result
    case noCache => exact hs.elim
    case clean => exact h.coherent.onDisk hs.right
    case failed =>
      obtain hr | hr := returned_of_setCalls hr
      case inl => cases hr
      case inr => exact absurd hr hn
    case busy => exact absurd hr hn
    case snapshot =>
      obtain hr | hr := returned_of_setCalls hr
      case inl => cases hr
      case inr => exact absurd hr hn

theorem Inv.onDisk (h : state.Inv) {act : WritebackAct} (hs : state.step act = some state') {call : Nat}
    (hr : state'.calls call = .returned (.ok ())) (hn : state.calls call ≠ .returned (.ok ())) :
    state.cached.OnDisk state.disk := by
  have hset (calls : Option Nat) {status : FlushCall} (hstatus : status ≠ .returned (.ok ())) :
      (state.setCalls calls status).calls call ≠ .returned (.ok ()) :=
    fun hc => (returned_of_setCalls hc).elim hstatus hn
  cases act
  case write =>
    cases hs
    simp only [Writeback.write] at hr
    split at hr <;> exact absurd hr hn
  case resize =>
    cases hs
    simp only [Writeback.resize] at hr
    split at hr <;> exact absurd hr hn
  case queue =>
    cases hs
    exact absurd hr hn
  case flush caller =>
    simp only [Writeback.step] at hs
    split at hs <;> cases hs <;> exact absurd hr (hset (some caller) nofun)
  case take caller =>
    cases caller
    case none =>
      cases hs
      exact h.onDisk_of_take hr hn
    case some caller =>
      simp only [Writeback.step] at hs
      split at hs <;> cases hs
      exact h.onDisk_of_take hr hn
  case giveUp caller =>
    simp only [Writeback.step] at hs
    split at hs <;> cases hs
    exact absurd hr (hset (some caller) nofun)
  case acknowledge caller =>
    simp only [Writeback.step] at hs
    split at hs <;> cases hs
    refine absurd hr (hset (some caller) ?_)
    split <;> nofun
  case apply =>
    simp only [Writeback.step] at hs
    split at hs <;> cases hs
    exact absurd hr hn
  case finish =>
    simp only [Writeback.step] at hs
    split at hs <;> cases hs
    obtain hr | hr := returned_of_setCalls hr
    case inl => split at hr <;> cases hr
    case inr => exact absurd hr hn

-- An empty file that has been cached.
def empty : Writeback where
  disk := ⟨0, []⟩
  cached := .new 0 0 (some []) .clean
  inFlight := none
  calls _ := .idle

theorem empty_opened : empty.Opened :=
  ⟨rfl, fun _ => rfl, .inr ⟨rfl, .inl rfl⟩⟩

end Writeback

end WllOs.Fs
