import WllOs.Fs.Theorems.Flush
import WllOs.Fs.RegularFile

namespace WllOs.Fs

open Buffer

-- A clean page has the bytes of the disk, and zeros behind the end of the file.
theorem DiskFile.fillCleanPageFrame_eq {disk : DiskFile} (hb : disk.size ≤ EXT_MAX_SIZE) (index : Nat) :
    ∃ page, disk.fillCleanPageFrame index = .ok page ∧
      ∀ pos, pos / pageSize = index → pageByte page pos = if pos < disk.size then disk.byte pos else 0 := by
  have hpos (pos : Nat) (hp : pos / pageSize = index) : pos = index * pageSize + pos % pageSize := by
    rw [← hp, Nat.div_add_mod']
  simp only [fillCleanPageFrame]
  split
  case isTrue hs =>
    refine ⟨_, rfl, fun pos hp => ?_⟩
    have := hpos pos hp
    rw [if_neg (by omega)]
    rfl
  case isFalse hs =>
    split
    case h_1 block hblock =>
      refine ⟨_, rfl, fun pos hp => ?_⟩
      have := hpos pos hp
      have := Nat.mod_lt pos pageSize_pos
      have hbyte : disk.byte pos = pageByte block pos := by
        apply byte_eq_of_block
        split at hblock
        case isTrue => rw [hp]; exact Option.join_eq_some_iff.mp hblock
        case isFalse => cases hblock
      simp only [pageByte] at hbyte ⊢
      rw [hbyte]
      apply if_congr _ rfl rfl
      omega
    case h_2 =>
      rw [extentAwareReadAt_eq hb (by omega)]
      have hne : ((List.range (min pageSize (disk.size - index * pageSize))).map fun i =>
          disk.byte (index * pageSize + i)).isEmpty = false := by
        have := pageSize_pos
        simp only [List.isEmpty_map, List.isEmpty_eq_false_iff, ne_eq, List.range_eq_nil]
        omega
      simp only [hne, Bool.false_eq_true, if_false]
      refine ⟨_, rfl, fun pos hp => ?_⟩
      have := hpos pos hp
      have := Nat.mod_lt pos pageSize_pos
      simp only [pageByte, getD_map_range, ← hpos pos hp]
      apply if_congr _ rfl rfl
      omega

namespace ByteVector

variable {bytes data : List UInt8} {offset pos : Nat}

theorem length_write (h : offset ≤ bytes.length) :
    (write bytes offset data).length = max bytes.length (offset + data.length) := by
  rw [write]
  split
  case isTrue hd =>
    rw [List.isEmpty_iff.mp hd]
    exact (Nat.max_eq_left h).symm
  case isFalse => rw [length_overwrite (by simp), length_resize]

theorem getD_write : (write bytes offset data).getD pos 0 = (placed offset data pos).getD (bytes.getD pos 0) := by
  rw [write]
  split
  case isTrue hd => simp [placed, List.isEmpty_iff.mp hd]
  case isFalse =>
    rw [getD_overwrite (by simp), getD_resize]
    by_cases hp : offset ≤ pos ∧ pos < offset + data.length
    case pos => rw [if_pos hp, placed_of_mem hp.left hp.right, Option.getD_some]
    case neg =>
      rw [if_neg hp, placed_of_not_mem (by omega), Option.getD_none]
      split
      case isTrue => rfl
      case isFalse hl => rw [getD_of_length_le (by omega)]

end ByteVector

namespace RegularFile

variable {file file' : RegularFile} {bytes : List UInt8} {pos : Nat}

def byte (file : RegularFile) (pos : Nat) : UInt8 :=
  match file.cached with
  | some cached => cached.byte file.disk pos
  | none        => if pos < file.disk.size then file.disk.byte pos else 0

-- The clean pages are those of the file.
def CleanPages (file : RegularFile) : Prop :=
  ∀ index page, file.clean index = some page → ∀ pos, pos / pageSize = index → pageByte page pos = file.byte pos

structure Inv (file : RegularFile) : Prop where
  cached : ∀ cached, file.cached = some cached → cached.Coherent file.disk ∧ ¬cached.dirty.writebackActive
  noHoles : file.disk.NoHoles
  bound : file.disk.size ≤ EXT_MAX_SIZE
  clean : file.CleanPages

structure Represents (file : RegularFile) (bytes : List UInt8) : Prop where
  size : file.regularFileSize = bytes.length
  byte : ∀ pos, file.byte pos = bytes.getD pos 0

-- Only clean pages have changed.
def Refilled (file file' : RegularFile) : Prop :=
  file'.CleanPages ∧ ∃ clean, file' = { file with clean }

theorem Inv.refilled (h : file.Inv) (hr : file.Refilled file') : file'.Inv := by
  have ⟨hc, _, he⟩ := hr
  subst he
  exact ⟨h.cached, h.noHoles, h.bound, hc⟩

theorem Represents.refilled (h : file.Represents bytes) (hr : file.Refilled file') : file'.Represents bytes := by
  have ⟨_, _, he⟩ := hr
  subst he
  exact ⟨h.size, h.byte⟩

theorem Inv.refl (h : file.Inv) : file.Refilled file :=
  ⟨h.clean, _, rfl⟩

theorem cleanPageCacheFrame_spec (h : file.Inv) (hc : file.cached = none) (alloc : Nat → Bool) (index : Nat) :
    file.Refilled (file.cleanPageCacheFrame alloc index).snd ∧
      ((file.cleanPageCacheFrame alloc index).fst = .error .ENOMEM ∨
        ∃ page, (file.cleanPageCacheFrame alloc index).fst = .ok page ∧
          ∀ pos, pos / pageSize = index → pageByte page pos = file.byte pos) := by
  simp only [cleanPageCacheFrame]
  cases hp : file.clean index
  case some page => exact ⟨h.refl, .inr ⟨page, rfl, h.clean index page hp⟩⟩
  case none =>
    by_cases ha : alloc index
    case neg =>
      simp only [ha]
      exact ⟨h.refl, .inl rfl⟩
    case pos =>
      have ⟨page, hf, hb⟩ := DiskFile.fillCleanPageFrame_eq h.bound index
      have hbyte (pos : Nat) (hi : pos / pageSize = index) : pageByte page pos = file.byte pos := by
        rw [hb pos hi, byte, hc]
      simp only [ha, if_true, hf]
      refine ⟨⟨?_, _, rfl⟩, .inr ⟨page, rfl, hbyte⟩⟩
      intro index' page' hpage pos hi
      by_cases he : index' = index
      case pos =>
        subst he
        simp only [Function.update_self, Option.some.injEq] at hpage
        subst hpage
        exact hbyte pos hi
      case neg =>
        simp only [Function.update_of_ne he] at hpage
        exact h.clean index' page' hpage pos hi

theorem copyCleanPages_spec (h : file.Inv) (hc : file.cached = none) (alloc : Nat → Bool) (current len : Nat) :
    file.Refilled (file.copyCleanPages alloc current len).snd ∧
      ((file.copyCleanPages alloc current len).fst = .error .ENOMEM ∨
        (file.copyCleanPages alloc current len).fst = .ok ((List.range len).map fun i => file.byte (current + i))) := by
  induction len using Nat.strong_induction_on generalizing file current
  case h len hi =>
    rw [copyCleanPages]
    split
    case isTrue hl => exact ⟨h.refl, .inr (by simp [hl])⟩
    case isFalse hl =>
      have := Nat.mod_lt current pageSize_pos
      have hcount := Nat.min_le_right len (pageSize - current % pageSize)
      have hm := Nat.min_le_left len (pageSize - current % pageSize)
      have ⟨hr, hframe⟩ := cleanPageCacheFrame_spec h hc alloc (current / pageSize)
      dsimp only
      cases hs : file.cleanPageCacheFrame alloc (current / pageSize)
      case mk result filled =>
        rw [hs] at hr hframe
        obtain hframe | ⟨page, hframe, hpage⟩ := hframe
        case inl =>
          dsimp only at hframe
          subst hframe
          exact ⟨hr, .inl rfl⟩
        case inr =>
          dsimp only at hframe
          subst hframe
          generalize hn : min len (pageSize - current % pageSize) = count at *
          have ⟨hclean, clean, he⟩ := hr
          have hbytes : ((List.range count).map fun i => pageByte page (current + i)) =
              (List.range count).map fun i => file.byte (current + i) := by
            apply List.map_congr_left
            intro i hi
            exact hpage _ (div_eq_of_lt_page (Nat.lt_of_lt_of_le (List.mem_range.mp hi) hcount))
          subst he
          have ⟨hr', hrest⟩ := hi (len - count) (by omega) (h.refilled ⟨hclean, clean, rfl⟩) hc (current + count)
          have ⟨hclean', clean', he'⟩ := hr'
          dsimp only
          refine ⟨⟨hclean', clean', he'⟩, ?_⟩
          obtain hrest | hrest := hrest
          case inl => exact .inl (by rw [hrest]; rfl)
          case inr =>
            right
            rw [hrest, hbytes, ← map_range_append file.byte current hm]
            rfl

-- Reading gives the bytes of the file. If there are no frames, they are read from the disk.
theorem read_spec (h : file.Inv) (alloc : Nat → Bool) (offset len : Nat) :
    file.Refilled (file.read alloc offset len).snd ∧ (file.read alloc offset len).fst =
      .ok ((List.range (min len (file.regularFileSize - offset))).map fun i => file.byte (offset + i)) := by
  simp only [read]
  cases hc : file.cached
  case some cached =>
    have ⟨hcoherent, _⟩ := h.cached cached hc
    have hbyte (pos : Nat) : file.byte pos = cached.byte file.disk pos := by rw [byte, hc]
    have hsize : file.regularFileSize = cached.size := by rw [regularFileSize, hc]; rfl
    dsimp only
    split
    case isTrue ho =>
      refine ⟨h.refl, ?_⟩
      rw [hsize, Nat.sub_eq_zero_of_le ho, Nat.min_zero]
      rfl
    case isFalse ho =>
      refine ⟨h.refl, ?_⟩
      rw [CachedRegularFile.copyCachedRange_eq hcoherent.toReadable (by omega), hsize]
      simp only [hbyte]
  case none =>
    have hbyte (pos : Nat) : file.byte pos = if pos < file.disk.size then file.disk.byte pos else 0 := by rw [byte, hc]
    have hsize : file.regularFileSize = file.disk.size := by rw [regularFileSize, hc]; rfl
    have hdisk (file' : RegularFile) (hr : file.Refilled file') : file'.disk.extentAwareReadAt offset len =
        .ok ((List.range (min len (file.disk.size - offset))).map fun i => file.byte (offset + i)) := by
      have ⟨_, _, he⟩ := hr
      rw [he, DiskFile.extentAwareReadAt_min h.bound]
      congr 1
      apply List.map_congr_left
      intro i hi
      have := List.mem_range.mp hi
      rw [hbyte, if_pos (by omega)]
    have hspec : file.Refilled (file.cleanPageCachedRead alloc offset len).snd ∧
        ((file.cleanPageCachedRead alloc offset len).fst = .error .ENOMEM ∨
          (file.cleanPageCachedRead alloc offset len).fst =
            .ok ((List.range (min len (file.disk.size - offset))).map fun i => file.byte (offset + i))) := by
      simp only [cleanPageCachedRead]
      split
      case isTrue ho =>
        have hz : min len (file.disk.size - offset) = 0 := by omega
        exact ⟨h.refl, .inr (by rw [hz]; rfl)⟩
      case isFalse => exact copyCleanPages_spec h hc alloc offset _
    rw [hsize]
    dsimp only
    cases hr : file.cleanPageCachedRead alloc offset len
    case mk result filled =>
      rw [hr] at hspec
      obtain ⟨hfilled, hresult | hresult⟩ := hspec
      case inl =>
        dsimp only at hresult
        subst hresult
        exact ⟨hfilled, hdisk filled hfilled⟩
      case inr =>
        dsimp only at hresult
        subst hresult
        exact ⟨hfilled, rfl⟩

-- What a file has become of another one, whose bytes have changed.
structure Changed (file : RegularFile) (size : Nat) (bytes : Nat → UInt8) (file' : RegularFile) : Prop where
  inv : file'.Inv
  size : file'.regularFileSize = size
  byte : ∀ pos, file'.byte pos = bytes pos

theorem ensureRegularCache_spec (h : file.Inv) : ∃ cached, file.ensureRegularCache = .ok cached ∧
    cached.Coherent file.disk ∧ ¬cached.dirty.writebackActive ∧ cached.size = file.regularFileSize ∧
    ∀ pos, cached.byte file.disk pos = file.byte pos := by
  simp only [ensureRegularCache]
  cases hc : file.cached
  case some cached =>
    obtain ⟨hcoherent, ha⟩ := h.cached cached hc
    exact ⟨cached, rfl, hcoherent, ha, by simp [regularFileSize, hc], fun pos => by rw [byte, hc]⟩
  case none =>
    have hnew (dense : Option (List UInt8))
        (hd : ∀ bytes, dense = some bytes → file.disk.extentAwareReadAt 0 file.disk.size = .ok bytes) :
        (CachedRegularFile.new file.disk.size file.disk.size dense .clean).Coherent file.disk ∧
          (∀ pos, (CachedRegularFile.new file.disk.size file.disk.size dense .clean).byte file.disk pos =
            file.byte pos) :=
      ⟨CachedRegularFile.coherent_new dense h.noHoles h.bound hd, fun pos => by
        rw [CachedRegularFile.byte_new h.bound hd, byte, hc]⟩
    have hsize : file.regularFileSize = file.disk.size := by simp [regularFileSize, hc]
    rw [hsize]
    dsimp only
    split
    case isTrue =>
      generalize hd : ((List.range file.disk.size).map fun i => file.disk.byte (0 + i)) = dense
      have hread : file.disk.extentAwareReadAt 0 file.disk.size = .ok dense := by
        rw [DiskFile.extentAwareReadAt_eq h.bound (by omega), hd]
      have hl : dense.length = file.disk.size := by simp [← hd]
      obtain ⟨hcoherent, hbyte⟩ := hnew (some dense) fun bytes he => by rw [hread, Option.some.inj he]
      rw [hread]
      simp only [hl, Nat.lt_irrefl, if_false]
      exact ⟨_, rfl, hcoherent, (fun he => absurd he Bool.false_ne_true), rfl, hbyte⟩
    case isFalse =>
      obtain ⟨hcoherent, hbyte⟩ := hnew none fun _ he => by cases he
      exact ⟨_, rfl, hcoherent, (fun he => absurd he Bool.false_ne_true), rfl, hbyte⟩

theorem scheduleWriteback_spec {disk : DiskFile} {cached : CachedRegularFile} (h : cached.Coherent disk)
    (ha : ¬cached.dirty.writebackActive) : cached.scheduleWriteback.Coherent disk ∧
      ¬cached.scheduleWriteback.dirty.writebackActive ∧ cached.scheduleWriteback.size = cached.size ∧
      ∀ pos, cached.scheduleWriteback.byte disk pos = cached.byte disk pos := by
  simp only [CachedRegularFile.scheduleWriteback]
  split
  case isFalse => exact ⟨h, ha, rfl, fun _ => rfl⟩
  case isTrue =>
    rw [PageCacheDirtyModel.noteQueued]
    split
    case isTrue => exact ⟨h.setDirty _ rfl rfl rfl, by simp [PageCacheDirtyModel.writebackActive], rfl, fun _ => rfl⟩
    case isFalse => exact ⟨h, ha, rfl, fun _ => rfl⟩

-- A file that is cached now.
theorem Changed.of_cached {disk : DiskFile} {cached : CachedRegularFile} {clean : Nat → Option Page} {size : Nat}
    {bytes : Nat → UInt8} (h : cached.Coherent disk) (ha : ¬cached.dirty.writebackActive) (hs : cached.size = size)
    (hb : ∀ pos, cached.byte disk pos = bytes pos)
    (hc : ∀ index page, clean index = some page → ∀ pos, pos / pageSize = index → pageByte page pos = bytes pos) :
    file.Changed size bytes ⟨disk, some cached, clean⟩ where
  inv := ⟨fun _ he => Option.some.inj he ▸ ⟨h, ha⟩, h.noHoles, h.bound,
    fun index page hp pos hi => (hc index page hp pos hi).trans (hb pos).symm⟩
  size := hs
  byte := hb

theorem Inv.changed (h : file.Inv) : file.Changed file.regularFileSize file.byte file :=
  ⟨h, rfl, fun _ => rfl⟩

-- What a write comes to.
def WriteSpec (file : RegularFile) (offset : Nat) (buf : List UInt8) : Except SysErrNo Nat × RegularFile → Prop
  | (.error _, file') => file.Changed file.regularFileSize file.byte file'
  | (.ok n, file')    => n ≤ buf.length ∧ (buf ≠ [] → 0 < n) ∧ file.Changed (max file.regularFileSize (offset + n))
      (fun pos => (placed offset (buf.take n) pos).getD (file.byte pos)) file'

theorem write_spec (h : file.Inv) (frames : Nat) {offset : Nat} (buf : List UInt8)
    (ho : offset ≤ file.regularFileSize) : file.WriteSpec offset buf (file.write frames offset buf) := by
  rw [write]
  split
  case isTrue => exact h.changed
  case isFalse =>
    split
    case isTrue hb =>
      have hb := List.isEmpty_iff.mp hb
      refine ⟨Nat.zero_le _, fun hne => absurd hb hne, h, (Nat.max_eq_left ho).symm, fun pos => ?_⟩
      simp [placed, hb]
    case isFalse hb =>
      have hne : buf ≠ [] := fun he => hb (by simp [he])
      have hlen := List.length_pos_of_ne_nil hne
      obtain ⟨cached, he, hc, ha, hs, hbyte⟩ := ensureRegularCache_spec h
      have hw := CachedRegularFile.cachedRegularWrite_spec hc.toWellFormed frames offset buf
      rw [he]
      dsimp only
      rw [invalidateCleanPagesRange, if_neg (by omega)]
      dsimp only
      cases hr : cached.cachedRegularWrite file.disk frames offset buf
      case mk result cached' =>
        rw [hr] at hw
        cases result
        case error =>
          have hd : cached'.dirty = cached.dirty ∧ cached'.size = cached.size := by
            obtain ⟨⟨_, _, he⟩, _, _⟩ := hw.left
            rw [he]
            exact ⟨rfl, rfl⟩
          apply Changed.of_cached (hc.holds hw.left hw.right) (by rwa [hd.left]) (hd.right.trans hs)
          case hb => exact fun pos => (hw.left.byte pos).trans (hbyte pos)
          case hc =>
            intro index page hp
            split at hp
            case isTrue => cases hp
            case isFalse => exact h.clean index page hp
        case ok n =>
          obtain ⟨hle, hpos, hwf, stored, hh, heq⟩ := hw
          have ho' : offset ≤ cached.size := by rwa [hs]
          have hn := hpos hne
          subst heq
          have hmod := CachedRegularFile.Modified.written hc.sorted ho' hn hh
          have hwritten := hc.written ho' (by simp [hle]) hh hwf hn
          obtain ⟨hcoherent, hactive, hsize, hbytes⟩ := scheduleWriteback_spec hwritten (by rwa [hmod.active])
          have hsize' : (stored.noteCachedDataWrite offset (offset + n)).size =
              max file.regularFileSize (offset + n) := by
            obtain ⟨⟨_, _, he⟩, _, _⟩ := hh
            rw [← hs, he]
            rfl
          have hbyte' (pos : Nat) : (stored.noteCachedDataWrite offset (offset + n)).byte file.disk pos =
              (placed offset (buf.take n) pos).getD (file.byte pos) := by
            rw [CachedRegularFile.byte_noteCachedDataWrite, hh.byte, hbyte]
          refine ⟨hle, hpos, .of_cached hcoherent hactive (hsize.trans hsize')
            (fun pos => (hbytes pos).trans (hbyte' pos)) fun index page hp pos hi => ?_⟩
          split at hp
          case isTrue => cases hp
          case isFalse hrange =>
            have hout : placed offset (buf.take n) pos = none := by
              apply placed_of_not_mem
              rw [List.length_take]
              by_contra hin
              apply hrange
              rw [← hi]
              exact ⟨Nat.div_le_div_right (by omega), Nat.div_le_div_right (by omega)⟩
            rw [hout]
            exact h.clean index page hp pos hi

-- A write that finds enough frames goes through, at whatever position.
theorem write_complete (h : file.Inv) {offset : Nat} {buf : List UInt8} (hb : buf ≠ [])
    (hl : offset + buf.length ≤ MAX_FILE_OFFSET) :
    ∃ frames file', file.write frames offset buf = (.ok buf.length, file') ∧
      file'.regularFileSize = max file.regularFileSize (offset + buf.length) := by
  have ⟨cached, he, hc, _, hs, _⟩ := ensureRegularCache_spec h
  have ⟨frames, hf⟩ := CachedRegularFile.cachedRegularWrite_complete hc.toWellFormed hc.evicted offset buf
  have hw := CachedRegularFile.cachedRegularWrite_spec hc.toWellFormed frames offset buf
  refine ⟨frames, (file.write frames offset buf).snd, ?_⟩
  rw [write, if_neg (Nat.not_lt.mpr hl), if_neg (by simpa using hb), he]
  dsimp only
  have hdisk : (file.invalidateCleanPagesRange offset (offset + buf.length)).disk = file.disk := by
    simp only [invalidateCleanPagesRange]
    split <;> rfl
  rw [hdisk]
  cases hr : cached.cachedRegularWrite file.disk frames offset buf
  case mk result cached' =>
    rw [hr] at hw hf
    dsimp only at hf
    subst hf
    have ⟨_, _, _, stored, hh, heq⟩ := hw
    have ⟨⟨_, _, hstored⟩, _, _⟩ := hh
    refine ⟨rfl, ?_⟩
    have hsize : cached'.scheduleWriteback.size = cached'.size := by
      simp only [CachedRegularFile.scheduleWriteback]
      split <;> rfl
    rw [← hs, regularFileSize, Option.elim_some, hsize, heq, hstored]
    rfl

-- What a truncation comes to.
def TruncateSpec (file : RegularFile) (newLen : Nat) : Except SysErrNo Unit × RegularFile → Prop
  | (.error _, file') => file.Changed file.regularFileSize file.byte file'
  | (.ok (), file')   => file.Changed newLen (fun pos => if pos < newLen then file.byte pos else 0) file'

theorem setSize_size (cached : CachedRegularFile) (newLen : Nat) : (cached.setSize newLen).size = newLen := by
  simp only [CachedRegularFile.setSize]
  split
  case isTrue => rfl
  case isFalse =>
    split
    case isTrue => rfl
    case isFalse =>
      dsimp only
      omega

-- A file that is not cached does not get longer.
theorem truncate_spec (h : file.Inv) (frames newLen : Nat) (hs : file.cached = none → newLen ≤ file.disk.size) :
    file.TruncateSpec newLen (file.truncate frames newLen) := by
  rw [truncate]
  split
  case isTrue => exact h.changed
  case isFalse =>
    dsimp only [invalidateCleanPages]
    cases hc : file.cached
    case some cached =>
      obtain ⟨hcoherent, ha⟩ := h.cached cached hc
      have hsize : file.regularFileSize = cached.size := by simp [regularFileSize, hc]
      have hbyte (pos : Nat) : file.byte pos = cached.byte file.disk pos := by rw [byte, hc]
      have hr := CachedRegularFile.cachedRegularResize_spec hcoherent.toWellFormed frames newLen
      dsimp only
      cases he : cached.cachedRegularResize frames newLen
      case mk result cached' =>
        rw [he] at hr
        cases result
        case error =>
          have hd : cached'.dirty = cached.dirty ∧ cached'.size = cached.size := by
            obtain ⟨⟨_, _, he⟩, _, _⟩ := hr.left
            rw [he]
            exact ⟨rfl, rfl⟩
          exact .of_cached (hcoherent.holds hr.left hr.right) (by rwa [hd.left]) (hd.right.trans hsize.symm)
            (fun pos => (hr.left.byte pos).trans (hbyte pos).symm) fun _ _ he => by cases he
        case ok =>
          obtain ⟨_, hb, promoted, hh, hp, heq⟩ := hr
          have hpromoted := hcoherent.holds hh hp
          have hmod := hh.modified (.setSize hpromoted.sorted newLen)
          subst heq
          obtain ⟨hset, hactive, hsize', hbytes⟩ := scheduleWriteback_spec (hpromoted.setSize newLen) (by rwa [hmod.active])
          refine .of_cached hset hactive (hsize'.trans (setSize_size promoted newLen)) (fun pos => ?_) fun _ _ he => by cases he
          rw [hbytes, hb, hbyte]
    case none =>
      have hbyte (pos : Nat) : file.byte pos = if pos < file.disk.size then file.disk.byte pos else 0 := by
        rw [byte, hc]
      have hle := hs hc
      dsimp only
      split
      case isTrue hlt =>
        have hn := h.noHoles.truncateInode hle
        have hb : (file.disk.truncateInode newLen).size ≤ EXT_MAX_SIZE := Nat.le_trans hle h.bound
        have hdisk (pos : Nat) : (if pos < newLen then (file.disk.truncateInode newLen).byte pos else 0) =
            if pos < newLen then file.byte pos else 0 := by
          split
          case isTrue hp => rw [DiskFile.byte_truncateInode hp, hbyte, if_pos (by omega)]
          case isFalse => rfl
        split
        case isTrue hz =>
          refine .of_cached (CachedRegularFile.coherent_dirtyWholeFile hn hb hz) (fun he => absurd he Bool.false_ne_true) hz.symm
            (fun pos => ?_) fun _ _ he => by cases he
          rw [if_neg (by omega)]
          simp [CachedRegularFile.byte, CachedRegularFile.new]
        case isFalse =>
          refine ⟨⟨?_, hn, hb, ?_⟩, ?_, hdisk⟩
          case refine_1 => intro _ hc; cases hc
          case refine_2 => intro _ _ hc; cases hc
          case refine_3 => rfl
      case isFalse hge =>
        have heq : newLen = file.disk.size := by omega
        rw [if_neg (by omega)]
        refine ⟨⟨?_, h.noHoles, h.bound, fun _ _ hc => by cases hc⟩, ?_, fun pos => ?_⟩
        · simp
        · simp [regularFileSize, heq]
        · rw [hbyte, heq]
          by_cases hp : pos < file.disk.size <;> simp [byte, hp]

theorem Changed.trans {size : Nat} {bytes : Nat → UInt8} {file'' : RegularFile} (h : file.Changed size bytes file')
    (h' : file'.Changed file'.regularFileSize file'.byte file'') : file.Changed size bytes file'' :=
  ⟨h'.inv, h'.size.trans h.size, fun pos => (h'.byte pos).trans (h.byte pos)⟩

-- Another cache entry with the same bytes, over the disk as it is then.
theorem Inv.recached (h : file.Inv) {cached cached' : CachedRegularFile} {disk : DiskFile}
    (hc : file.cached = some cached) (hcoherent : cached'.Coherent disk) (ha : ¬cached'.dirty.writebackActive)
    (hs : cached'.size = cached.size) (hb : ∀ pos, cached'.byte disk pos = cached.byte file.disk pos) :
    file.Changed file.regularFileSize file.byte { file with disk, cached := some cached' } := by
  have hbyte (pos : Nat) : file.byte pos = cached.byte file.disk pos := by rw [byte, hc]
  have hsize : file.regularFileSize = cached.size := by simp [regularFileSize, hc]
  exact .of_cached hcoherent ha (hs.trans hsize.symm) (fun pos => (hb pos).trans (hbyte pos).symm) h.clean

-- A snapshot that is applied and finished at once.
theorem written_spec {disk : DiskFile} {cached : CachedRegularFile} {snapshot : WritebackSnapshot}
    (h : cached.Coherent disk) (hf : cached.Flying disk snapshot) {outcome : DiskOutcome} (ho : outcome.stored)
    {result : Except SysErrNo Unit} {disk' : DiskFile}
    (hr : disk.applyWritebackSnapshot snapshot outcome = (result, disk')) :
    (cached.finishWritebackSnapshot snapshot result).Coherent disk' ∧
      ¬(cached.finishWritebackSnapshot snapshot result).dirty.writebackActive ∧
      (cached.finishWritebackSnapshot snapshot result).size = cached.size ∧
      ∀ pos, (cached.finishWritebackSnapshot snapshot result).byte disk' pos = cached.byte disk pos := by
  have hs := hf.apply h ho
  rw [hr] at hs
  have he : ¬cached.evicted := by simp [h.evicted]
  cases result
  case error err =>
    have hc := hf.coherent h hs
    rw [CachedRegularFile.finishWritebackSnapshot, if_neg he]
    exact ⟨hc.setDirty _ rfl rfl rfl, PageCacheDirtyModel.settled_inactive rfl, rfl, hf.byte_eq h hs⟩
  case ok =>
    have hc := hf.coherent h hs.toApplying
    obtain ⟨hfinish, hb⟩ := (hf.landed h hs).finish hc
    refine ⟨hfinish, ?_, ?_, fun pos => (hb pos).trans (hf.byte_eq h hs.toApplying pos)⟩
    · rw [CachedRegularFile.finishWritebackSnapshot, if_neg he]
      exact PageCacheDirtyModel.finishWriteback_inactive _ _ _ _
    · rw [CachedRegularFile.finishWritebackSnapshot, if_neg he]

theorem acknowledged_spec {disk : DiskFile} {cached : CachedRegularFile} (h : cached.Coherent disk)
    (ha : ¬cached.dirty.writebackActive) (err : SysErrNo) :
    let dirty := if cached.dirty.lastError = some err then { cached.dirty with lastError := none } else cached.dirty
    ({ cached with dirty } : CachedRegularFile).Coherent disk ∧ ¬dirty.writebackActive := by
  dsimp only
  split
  case isTrue => exact ⟨h.setDirty _ rfl rfl rfl, ha⟩
  case isFalse => exact ⟨h, ha⟩

theorem flush_spec (h : file.Inv) {outcomes : List DiskOutcome} (ho : ∀ outcome ∈ outcomes, outcome.stored)
    {result : Except SysErrNo Unit} (hf : file.flush outcomes = some (result, file')) :
    file.Changed file.regularFileSize file.byte file' := by
  induction outcomes generalizing file
  case nil => cases hf
  case cons outcome outcomes hi =>
    have ho' : ∀ outcome ∈ outcomes, outcome.stored := fun _ hm => ho _ (List.mem_cons_of_mem _ hm)
    rw [flush] at hf
    cases hc : file.cached
    case none =>
      simp only [hc, Option.some.injEq, Prod.mk.injEq] at hf
      rw [← hf.right]
      exact h.changed
    case some cached =>
      have ⟨hcoherent, ha⟩ := h.cached cached hc
      have htake := hcoherent.take
      rw [hc] at hf
      dsimp only at hf
      cases hr : cached.takeWritebackSnapshot file.disk
      case mk taken cached' =>
        rw [hr] at htake hf
        cases taken
        case noCache => exact htake.elim
        case clean =>
          simp only [Option.some.injEq, Prod.mk.injEq] at hf
          rw [← hf.right, htake.left]
          exact h.recached hc hcoherent ha rfl fun _ => rfl
        case busy => exact absurd htake.left ha
        case failed err =>
          have ⟨hack, hactive⟩ := acknowledged_spec hcoherent ha err
          have hchanged := h.recached hc hack hactive rfl fun _ => rfl
          rw [htake] at hf
          dsimp only at hf hchanged
          generalize (if cached.dirty.lastError = some err then { cached.dirty with lastError := none } else
            cached.dirty) = dirty at hf hchanged
          split at hf
          case isTrue => exact hchanged.trans (hi hchanged.inv ho' hf)
          case isFalse =>
            simp only [Option.some.injEq, Prod.mk.injEq] at hf
            rw [← hf.right]
            exact hchanged
        case snapshot snapshot =>
          have ⟨_, _, hcoherent', hflying, _, dirty, he⟩ := htake
          dsimp only at hf
          cases happly : file.disk.applyWritebackSnapshot snapshot outcome
          case mk applied disk =>
            have ⟨hfinish, hactive, hsize, hb⟩ := written_spec hcoherent' hflying (ho _ List.mem_cons_self) happly
            rw [happly] at hf
            have hchanged := h.recached hc hfinish hactive (hsize.trans (by rw [he]))
              fun pos => (hb pos).trans (by rw [he]; rfl)
            cases applied
            case error =>
              simp only [Option.some.injEq, Prod.mk.injEq] at hf
              rw [← hf.right]
              exact hchanged
            case ok => exact hchanged.trans (hi hchanged.inv ho' hf)

theorem close_spec (h : file.Inv) : file.Changed file.regularFileSize file.byte file.close := by
  rw [close]
  cases hc : file.cached
  case none => exact h.changed
  case some cached =>
    have ⟨hcoherent, ha⟩ := h.cached cached hc
    dsimp only
    split
    case isTrue =>
      have ⟨hset, hactive, hsize, hb⟩ := scheduleWriteback_spec hcoherent ha
      exact h.recached hc hset hactive hsize hb
    case isFalse hd =>
      have honDisk := hcoherent.onDisk (by simpa [CachedRegularFile.isDirty, hcoherent.evicted] using hd)
      refine ⟨⟨?_, h.noHoles, h.bound, ?_⟩, ?_, fun pos => ?_⟩
      · intro _ hc
        cases hc
      · intro _ _ hc
        cases hc
      · simp [regularFileSize, hc, honDisk.size]
      · simp only [byte, hc, honDisk.size]
        split
        case isTrue hp => exact honDisk.byte pos hp
        case isFalse hp => exact (hcoherent.zero pos (Nat.not_lt.mp hp)).symm

theorem Represents.of_changed {size : Nat} {new : Nat → UInt8} {bytes' : List UInt8}
    (hc : file.Changed size new file') (hs : size = bytes'.length) (hb : ∀ pos, new pos = bytes'.getD pos 0) :
    file'.Represents bytes' :=
  ⟨hc.size.trans hs, fun pos => (hc.byte pos).trans (hb pos)⟩

theorem Represents.unchanged (h : file.Represents bytes) (hc : file.Changed file.regularFileSize file.byte file') :
    file'.Represents bytes :=
  .of_changed hc h.size h.byte

-- A step does to the file what it does to the vector of bytes.
theorem Inv.step (h : file.Inv) (hb : file.Represents bytes) {act : RegularFileAct} {result : RegularFileResult}
    (ha : file.Sound act) (hs : file.step act = some (result, file')) :
    file'.Inv ∧ file'.Represents (ByteVector.apply bytes (act, result)) := by
  cases act
  case read alloc offset len =>
    have ⟨hr, _⟩ := read_spec h alloc offset len
    simp only [RegularFile.step, Option.some.injEq, Prod.mk.injEq] at hs
    rw [← hs.right]
    exact ⟨h.refilled hr, hb.refilled hr⟩
  case write frames offset buf =>
    have hw := write_spec h frames buf ha
    simp only [RegularFile.step, Option.some.injEq, Prod.mk.injEq] at hs
    rw [← hs.left, ← hs.right]
    cases hr : file.write frames offset buf
    case mk result written =>
      rw [hr] at hw
      cases result
      case error => exact ⟨hw.inv, hb.unchanged hw⟩
      case ok n =>
        have ⟨hle, hpos, hc⟩ := hw
        refine ⟨hc.inv, Represents.of_changed hc ?_ fun pos => ?_⟩
        · rw [ByteVector.apply, ByteVector.length_write (hb.size ▸ ha), List.length_take, Nat.min_eq_left hle, hb.size]
        · rw [ByteVector.apply, ByteVector.getD_write, hb.byte]
  case truncate frames newLen =>
    have ht := truncate_spec h frames newLen ha
    simp only [RegularFile.step, Option.some.injEq, Prod.mk.injEq] at hs
    rw [← hs.left, ← hs.right]
    cases hr : file.truncate frames newLen
    case mk result truncated =>
      rw [hr] at ht
      cases result
      case error => exact ⟨ht.inv, hb.unchanged ht⟩
      case ok =>
        refine ⟨ht.inv, Represents.of_changed ht length_resize.symm fun pos => ?_⟩
        rw [hb.byte]
        exact getD_resize.symm
  case flush outcomes =>
    simp only [RegularFile.step, Option.map_eq_some_iff, Prod.exists, Prod.mk.injEq] at hs
    have ⟨_, flushed, hf, hr, he⟩ := hs
    subst hr he
    have hc := flush_spec h ha hf
    exact ⟨hc.inv, hb.unchanged hc⟩
  case close =>
    simp only [RegularFile.step, Option.some.injEq, Prod.mk.injEq] at hs
    rw [← hs.left, ← hs.right]
    have hc := close_spec h
    exact ⟨hc.inv, hb.unchanged hc⟩
  case reclaim keep =>
    simp only [RegularFile.step, Option.some.injEq, Prod.mk.injEq] at hs
    rw [← hs.left, ← hs.right]
    refine ⟨⟨h.cached, h.noHoles, h.bound, fun index page hp => ?_⟩, hb.size, hb.byte⟩
    dsimp only at hp
    split at hp
    case isTrue => exact h.clean index page hp
    case isFalse => cases hp

theorem Inv.refines (h : file.Inv) (hb : file.Represents bytes) : file.Refines bytes where
  size := hb.size
  read alloc offset len := by
    rw [(read_spec h alloc offset len).right]
    congr 1
    apply ext_getD
    · rw [List.length_map, List.length_range, length_slice, hb.size]
    · intro i
      rw [getD_map_range, getD_slice]
      simp only [hb.byte, hb.size]
      by_cases hl : offset + i < bytes.length
      case pos =>
        apply if_congr _ rfl rfl
        omega
      case neg => rw [getD_of_length_le (by omega), ite_self, ite_self]

theorem Unopened.inv (h : file.Unopened) (hn : file.disk.NoHoles) (hs : file.disk.size ≤ EXT_MAX_SIZE) :
    file.Inv ∧ file.Represents file.contents := by
  have ⟨hc, hclean⟩ := h
  refine ⟨⟨by simp [hc], hn, hs, by simp [CleanPages, hclean]⟩, ?_, fun pos => ?_⟩
  · simp [regularFileSize, hc, contents]
  · rw [byte, hc, contents, getD_map_range]

theorem Run.inv {start : RegularFile} {trace : List (RegularFileAct × RegularFileResult)} (hi : start.Inv)
    (hb : start.Represents bytes) (hr : Run Sound start trace file) :
    file.Inv ∧ file.Represents (trace.foldl ByteVector.apply bytes) := by
  induction hr
  case nil => exact ⟨hi, hb⟩
  case snoc _ ha hs ih =>
    rw [List.foldl_append]
    exact ih.left.step ih.right ha hs

def unwritten : RegularFile where
  disk := ⟨0, []⟩
  cached := none
  clean _ := none

theorem unwritten_unopened : unwritten.Unopened :=
  ⟨rfl, fun _ => rfl⟩

def grown : RegularFile :=
  (unwritten.truncate 0 1).snd

def overwritten : RegularFile :=
  (grown.write 0 0 [7]).snd

def stored : List DiskOutcome :=
  List.replicate 2 ⟨.ok [], true⟩

theorem overwritten_flush : (overwritten.flush stored).isSome := by
  decide_cbv

def flushed : Except SysErrNo Unit × RegularFile :=
  (overwritten.flush stored).get overwritten_flush

def lossyTrace : List (RegularFileAct × RegularFileResult) :=
  [(.truncate 0 1, .done (unwritten.truncate 0 1).fst), (.write 0 0 [7], .count (grown.write 0 0 [7]).fst),
    (.flush stored, .done flushed.fst), (.close, .done (.ok ()))]

theorem run_lossyTrace : Run (fun _ _ => True) unwritten lossyTrace flushed.snd.close := by
  have hgrown : unwritten.step (.truncate 0 1) = some (_, grown) := rfl
  have hwritten : grown.step (.write 0 0 [7]) = some (_, overwritten) := rfl
  have hflushed : overwritten.step (.flush stored) = some (_, flushed.snd) :=
    Option.map_eq_some_iff.mpr ⟨flushed, (Option.some_get overwritten_flush).symm, rfl⟩
  have hclosed : flushed.snd.step .close = some (_, flushed.snd.close) := rfl
  exact .snoc (.snoc (.snoc (.snoc .nil trivial hgrown) trivial hwritten) trivial hflushed) trivial hclosed

end RegularFile

end WllOs.Fs
