import WllOs.Fs.Theorems.DiskFile

namespace WllOs.Fs

open Buffer

variable {pos offset len current count : Nat} {buf : List UInt8}

-- Positions of the page that a position lies in.
theorem div_eq_of_lt_page {i : Nat} (h : i < pageSize - current % pageSize) :
    (current + i) / pageSize = current / pageSize := by
  have hm := Nat.div_add_mod' current pageSize
  apply Nat.div_eq_of_lt_le
  case lo => omega
  case hi =>
    rw [Nat.add_mul]
    omega

-- A buffer that takes up a page.
theorem placed_page (hc : current % pageSize = 0) (hl : buf.length = pageSize)
    (hi : pos / pageSize = current / pageSize) : placed current buf pos ≠ none := by
  have hcur := Nat.div_add_mod' current pageSize
  have hpos := Nat.div_add_mod' pos pageSize
  have := Nat.mod_lt pos pageSize_pos
  rw [hi] at hpos
  intro h
  have := placed_eq_none_iff.mp h
  omega

namespace CachedRegularFile

variable {disk : DiskFile} {cached : CachedRegularFile}

-- What reading a file takes.
structure Readable (disk : DiskFile) (cached : CachedRegularFile) : Prop where
  dense : ∀ dense, cached.dense = some dense → dense.length = cached.size
  persisted : cached.persistedSize ≤ disk.size
  bound : disk.size ≤ EXT_MAX_SIZE

theorem copyPage_eq (h : cached.Readable disk) (hd : cached.dense = none)
    (hc : count ≤ pageSize - current % pageSize) :
    cached.copyPage disk current count = .ok ((List.range count).map fun i => cached.byte disk (current + i)) := by
  have hb : ∀ i < count, (current + i) / pageSize = current / pageSize :=
    fun i hi => div_eq_of_lt_page (Nat.lt_of_lt_of_le hi hc)
  simp only [copyPage]
  cases hp : cached.pages (current / pageSize)
  case some page =>
    dsimp only
    congr 1
    apply List.map_congr_left
    intro i hi
    simp [byte, hd, hb i (List.mem_range.mp hi), hp]
  case none =>
    have hi (i : Nat) (hi : i < count) : cached.byte disk (current + i) =
        if current + i < cached.persistedSize then disk.byte (current + i) else 0 := by
      simp [byte, hd, hb i hi, hp]
    have hpersisted := h.persisted
    dsimp only
    split
    case isTrue hlt =>
      rw [DiskFile.extentAwareReadAt_eq h.bound (by omega)]
      simp only [List.length_map, List.length_range, ne_eq, not_true, if_false]
      congr 1
      apply List.ext_getElem
      · simp
      · intro i h₁ h₂
        simp only [List.length_map, List.length_range] at h₂
        simp only [List.getElem_map, List.getElem_range, List.getElem_append, List.length_map, List.length_range,
          List.getElem_replicate, hi i h₂]
        grind
    case isFalse hlt =>
      congr 1
      apply List.ext_getElem
      · simp
      · intro i h₁ h₂
        simp only [List.length_map, List.length_range] at h₂
        simp only [List.getElem_map, List.getElem_range, List.getElem_replicate, hi i h₂]
        rw [if_neg (by omega)]

theorem copyPages_eq (h : cached.Readable disk) (hd : cached.dense = none) (current len : Nat) :
    cached.copyPages disk current len = .ok ((List.range len).map fun i => cached.byte disk (current + i)) := by
  induction len using Nat.strong_induction_on generalizing current
  case h len hi =>
    rw [copyPages]
    split
    case isTrue hl => simp [hl]
    case isFalse hl =>
      have := Nat.mod_lt current pageSize_pos
      have hc := Nat.min_le_right len (pageSize - current % pageSize)
      have hm := Nat.min_le_left len (pageSize - current % pageSize)
      dsimp only
      rw [copyPage_eq h hd hc]
      generalize hn : min len (pageSize - current % pageSize) = count at hm
      dsimp only
      rw [hi (len - count) (by omega) (current + count)]
      simp only [Except.map]
      rw [map_range_append (cached.byte disk) current hm]

theorem copyCachedRange_eq (h : cached.Readable disk) {start : Nat} (hs : start + len ≤ cached.size) :
    cached.copyCachedRange disk start len = .ok ((List.range len).map fun i => cached.byte disk (start + i)) := by
  simp only [copyCachedRange]
  cases hd : cached.dense
  case none => exact copyPages_eq h hd start len
  case some dense =>
    have hl := h.dense dense hd
    dsimp only
    rw [if_pos (by omega)]
    congr 1
    apply List.ext_getElem
    · simp [slice]
      omega
    · intro i h₁ h₂
      simp only [List.length_map, List.length_range] at h₂
      simp only [slice, List.getElem_take, List.getElem_drop, List.getElem_map, List.getElem_range, byte, hd]
      simp [List.getD_eq_getElem?_getD, List.getElem?_eq_getElem (by omega : start + i < dense.length)]

-- A cached file has nothing behind its end.
structure WellFormed (disk : DiskFile) (cached : CachedRegularFile) : Prop extends Readable disk cached where
  persisted_le : cached.persistedSize ≤ cached.size
  zero : ∀ pos, cached.size ≤ pos → cached.byte disk pos = 0

theorem promoteDense_spec (h : cached.WellFormed disk) {frames left : Nat} {promoted : CachedRegularFile}
    (hp : cached.promoteDense frames = .ok (promoted, left)) :
    (∃ pages, promoted = { cached with dense := none, pages }) ∧
      (∀ pos, promoted.byte disk pos = cached.byte disk pos) ∧ ∀ pos, promoted.FromDisk pos → cached.FromDisk pos := by
  simp only [promoteDense] at hp
  cases hd : cached.dense
  case none =>
    simp only [hd, Except.ok.injEq, Prod.mk.injEq] at hp
    obtain ⟨hp, _⟩ := hp
    subst hp
    exact ⟨⟨cached.pages, by rw [← hd]⟩, fun _ => rfl, fun _ => id⟩
  case some dense =>
    simp only [hd] at hp
    split at hp
    case isTrue => cases hp
    case isFalse =>
      cases hp
      have hl := h.dense dense hd
      have := h.persisted_le
      refine ⟨⟨_, rfl⟩, ?_, ?_⟩
      · intro pos
        simp only [byte, hd]
        by_cases hc : pos / pageSize < DiskFile.blockCount dense.length
        case pos => simp [hc, pageByte, Nat.div_add_mod']
        case neg =>
          have hs : dense.length ≤ pos := Nat.not_lt.mp fun hs => hc (DiskFile.div_lt_blockCount hs)
          simp only [hc, if_false]
          rw [if_neg (by omega), getD_of_length_le hs]
      · rintro pos ⟨_, hf, hlt⟩
        dsimp only at hf hlt
        rw [if_pos (DiskFile.div_lt_blockCount (by omega))] at hf
        cases hf

theorem cachedPageForWrite_spec (h : cached.Readable disk) (hd : cached.dense = none) {frames index left : Nat}
    {preserve : Bool} {page : Page} (hp : cached.cachedPageForWrite disk frames index preserve = .ok (page, left))
    (hr : preserve) (hi : pos / pageSize = index) : pageByte page pos = cached.byte disk pos := by
  subst hi
  simp only [cachedPageForWrite, hr, true_and] at hp
  simp only [byte, hd]
  cases hc : cached.pages (pos / pageSize)
  case some =>
    simp only [hc, Except.ok.injEq, Prod.mk.injEq] at hp
    simp [hp.left]
  case none =>
    have hm := Nat.div_add_mod' pos pageSize
    have hl := Nat.mod_lt pos pageSize_pos
    have := h.persisted
    simp only [hc] at hp ⊢
    split at hp
    case isTrue => cases hp
    case isFalse =>
      split at hp
      case isTrue hs =>
        rw [DiskFile.extentAwareReadAt_eq h.bound (by omega)] at hp
        simp only [List.length_map, List.length_range, ne_eq, not_true, if_false, Except.ok.injEq,
          Prod.mk.injEq] at hp
        rw [← hp.left]
        simp only [pageByte, List.getD_eq_getElem?_getD, List.getElem?_map]
        split
        case isTrue hlt =>
          rw [List.getElem?_range (by omega)]
          simp [hm]
        case isFalse hlt =>
          rw [List.getElem?_eq_none (by simp; omega)]
          rfl
      case isFalse hs =>
        cases hp
        rw [if_neg (by omega)]
        rfl

-- What a write to a single page changes.
theorem byte_updatePage (hd : cached.dense = none) {page : Page} {chunk : List UInt8}
    (hc : chunk.length ≤ pageSize - current % pageSize)
    (hp : ∀ pos, pos / pageSize = current / pageSize → placed current chunk pos = none →
      pageByte page pos = cached.byte disk pos) (pos : Nat) :
    (cached.setPage (current / pageSize) (pageUpdate page (current / pageSize) (placed current chunk))).byte disk pos =
      (placed current chunk pos).getD (cached.byte disk pos) := by
  simp only [byte, hd, setPage]
  by_cases hi : pos / pageSize = current / pageSize
  case pos =>
    rw [hi, Function.update_self, ← hi]
    dsimp only
    rw [pageByte_pageUpdate]
    cases hn : placed current chunk pos
    case some => rfl
    case none => simpa [byte, hd, hi] using hp pos hi hn
  case neg =>
    have hn : placed current chunk pos = none := by
      apply placed_of_not_mem
      by_cases hm : current ≤ pos ∧ pos < current + chunk.length
      case pos =>
        apply absurd _ hi
        rw [← @div_eq_of_lt_page current (pos - current) (by omega)]
        congr 1
        omega
      case neg => omega
    rw [Function.update_of_ne hi, hn]
    rfl

theorem writePages_spec (h : cached.Readable disk) (hd : cached.dense = none) (frames current : Nat)
    (buf : List UInt8) : ∃ copied pages err,
      writePages disk frames cached current buf = (copied, { cached with pages }, err) ∧
      copied ≤ buf.length ∧ (err = none → copied = buf.length) ∧
      (∀ pos, ({ cached with pages } : CachedRegularFile).byte disk pos =
        (placed current (buf.take copied) pos).getD (cached.byte disk pos)) ∧
      ∀ index, pages index = none → cached.pages index = none := by
  induction hn : buf.length using Nat.strong_induction_on generalizing cached frames current buf
  case h n hi =>
    rw [writePages]
    split
    case isTrue he =>
      simp only [List.isEmpty_iff.mp he, List.length_nil] at hn ⊢
      exact ⟨0, cached.pages, none, rfl, Nat.zero_le _, fun _ => hn, by simp [placed], fun _ => id⟩
    case isFalse he =>
      have hl := List.length_pos_of_ne_nil (by simpa using he)
      have hp := Nat.mod_lt current pageSize_pos
      have hc := Nat.min_le_right buf.length (pageSize - current % pageSize)
      have hm := Nat.min_le_left buf.length (pageSize - current % pageSize)
      have hz : min buf.length (pageSize - current % pageSize) ≠ 0 := by omega
      dsimp only
      generalize hcount : min buf.length (pageSize - current % pageSize) = count at hc hm hz ⊢
      cases hw : cached.cachedPageForWrite disk frames (current / pageSize)
        (current % pageSize ≠ 0 ∨ count ≠ pageSize)
      case error err =>
        exact ⟨0, cached.pages, some err, rfl, Nat.zero_le _, by simp, by simp [placed], fun _ => id⟩
      case ok result =>
        obtain ⟨page, left⟩ := result
        have hlen : (buf.take count).length = count := by simpa using hm
        have hkeep (pos : Nat) (hi : pos / pageSize = current / pageSize)
            (hn : placed current (buf.take count) pos = none) : pageByte page pos = cached.byte disk pos := by
          by_cases hpre : current % pageSize ≠ 0 ∨ count ≠ pageSize
          case pos => exact cachedPageForWrite_spec h hd hw (by simpa using hpre) hi
          case neg =>
            simp only [ne_eq, not_or, not_not] at hpre
            exact absurd hn (placed_page hpre.left (by rw [hlen, hpre.right]) hi)
        have hb := byte_updatePage hd (by omega) hkeep
        have hr : (cached.setPage (current / pageSize)
            (pageUpdate page (current / pageSize) (placed current (buf.take count)))).Readable disk :=
          ⟨h.dense, h.persisted, h.bound⟩
        obtain ⟨copied, pages, err, he, hle, hall, hbyte, hpages⟩ :=
          hi (n - count) (by omega) hr hd left (current + count) (buf.drop count) (by simp [hn])
        refine ⟨count + copied, pages, err, ?_, by omega, fun h => by have := hall h; omega, ?_, ?_⟩
        · dsimp only
          rw [he]
          rfl
        · intro pos
          rw [List.take_add, placed_append, hlen]
          refine (hbyte pos).trans ?_
          rw [hb pos]
          cases placed (current + count) ((buf.drop count).take copied) pos <;> rfl
        · intro index hnone
          have hset := hpages index hnone
          simp only [setPage] at hset
          by_cases hidx : index = current / pageSize
          case pos => simp [hidx] at hset
          case neg => rwa [Function.update_of_ne hidx] at hset

@[simp]
theorem byte_noteCachedDataWrite (offset writtenEnd : Nat) :
    (cached.noteCachedDataWrite offset writtenEnd).byte disk pos = cached.byte disk pos :=
  rfl

theorem WellFormed.promote (h : cached.WellFormed disk) {frames left : Nat} {promoted : CachedRegularFile}
    (hp : cached.promoteDense frames = .ok (promoted, left)) : promoted.WellFormed disk := by
  have ⟨⟨pages, he⟩, hb, _⟩ := promoteDense_spec h hp
  subst he
  exact ⟨⟨nofun, h.persisted, h.bound⟩, h.persisted_le, fun pos hz => (hb pos).trans (h.zero pos hz)⟩

-- A file that has other bytes, with or without a vector.
structure Holds (disk : DiskFile) (cached : CachedRegularFile) (bytes : Nat → UInt8) (cached' : CachedRegularFile) :
    Prop where
  same : ∃ dense pages, cached' = { cached with dense, pages }
  byte : ∀ pos, cached'.byte disk pos = bytes pos
  fromDisk : ∀ pos, cached'.FromDisk pos → cached.FromDisk pos

theorem Holds.refl (cached : CachedRegularFile) : cached.Holds disk (cached.byte disk) cached :=
  ⟨⟨_, _, rfl⟩, fun _ => rfl, fun _ => id⟩

theorem WellFormed.promoted (h : cached.WellFormed disk) {frames left limit «end» : Nat} {promoted : CachedRegularFile}
    (hp : (if «end» > limit then cached.promoteDense frames else .ok (cached, frames)) = .ok (promoted, left)) :
    cached.Holds disk (cached.byte disk) promoted ∧ promoted.WellFormed disk := by
  split at hp
  case isTrue =>
    have ⟨⟨pages, he⟩, hb, hf⟩ := promoteDense_spec h hp
    exact ⟨⟨⟨_, pages, he⟩, hb, hf⟩, h.promote hp⟩
  case isFalse =>
    cases hp
    exact ⟨.refl cached, h⟩

-- What a write comes to: the bytes have been put where they belong, or nothing has changed.
def WriteSpec (disk : DiskFile) (cached : CachedRegularFile) (offset : Nat) (buf : List UInt8) :
    Except SysErrNo Nat × CachedRegularFile → Prop
  | (.ok n, cached') => n ≤ buf.length ∧ (buf ≠ [] → 0 < n) ∧ cached'.WellFormed disk ∧ ∃ stored,
      cached.Holds disk (fun pos => (placed offset (buf.take n) pos).getD (cached.byte disk pos)) stored ∧
      cached' = stored.noteCachedDataWrite offset (offset + n)
  | (.error _, cached') => cached.Holds disk (cached.byte disk) cached' ∧ cached'.WellFormed disk

theorem WellFormed.written (h : cached.WellFormed disk) {stored : CachedRegularFile} {data : List UInt8}
    (hs : cached.Holds disk (fun pos => (placed offset data pos).getD (cached.byte disk pos)) stored)
    (hd : ∀ dense, stored.dense = some dense → dense.length = max cached.size (offset + data.length)) :
    (stored.noteCachedDataWrite offset (offset + data.length)).WellFormed disk := by
  have ⟨⟨dense, pages, he⟩, hb, _⟩ := hs
  subst he
  refine ⟨⟨hd, h.persisted, h.bound⟩, Nat.le_trans h.persisted_le (Nat.le_max_left _ _), ?_⟩
  intro pos hp
  simp only [noteCachedDataWrite] at hp
  rw [byte_noteCachedDataWrite, hb, placed_of_not_mem (by omega)]
  exact h.zero pos (by omega)

theorem Holds.trans {promoted stored : CachedRegularFile} {bytes : Nat → Option UInt8}
    (h : cached.Holds disk (cached.byte disk) promoted)
    (hs : promoted.Holds disk (fun pos => (bytes pos).getD (promoted.byte disk pos)) stored) :
    cached.Holds disk (fun pos => (bytes pos).getD (cached.byte disk pos)) stored := by
  have ⟨⟨_, _, he⟩, hb, hf⟩ := h
  have ⟨⟨_, _, he'⟩, hb', hf'⟩ := hs
  subst he he'
  refine ⟨⟨_, _, rfl⟩, ?_, fun pos hp => hf pos (hf' pos hp)⟩
  intro pos
  rw [hb' pos, hb pos]

theorem Holds.writeDense (disk : DiskFile) (offset : Nat) (buf : List UInt8) {dense : List UInt8}
    (hd : cached.dense = some dense) :
    cached.Holds disk (fun pos => (placed offset buf pos).getD (cached.byte disk pos))
      { cached with dense := some (overwrite (if offset + buf.length > dense.length then
        resize 0 dense (offset + buf.length) else dense) offset buf) } := by
  refine ⟨⟨_, _, rfl⟩, ?_, fun pos hp => by cases hp.left⟩
  intro pos
  have hm := @resize_max _ (0 : UInt8) dense (offset + buf.length)
  simp only [gt_iff_lt, hm, CachedRegularFile.byte, hd]
  rw [getD_overwrite (by simp), getD_resize]
  by_cases hm : offset ≤ pos ∧ pos < offset + buf.length
  case pos => rw [if_pos hm, placed_of_mem hm.left hm.right, Option.getD_some]
  case neg =>
    rw [if_neg hm, placed_of_not_mem (by omega), Option.getD_none]
    split
    case isTrue => rfl
    case isFalse hl => rw [getD_of_length_le (by omega)]

theorem cachedRegularWrite_spec (h : cached.WellFormed disk) (frames offset : Nat) (buf : List UInt8) :
    cached.WriteSpec disk offset buf (cached.cachedRegularWrite disk frames offset buf) := by
  simp only [cachedRegularWrite]
  split
  case isTrue => exact ⟨.refl cached, h⟩
  case isFalse =>
    cases hp : if offset + buf.length > DENSE_REGULAR_CACHE_LIMIT then cached.promoteDense frames
      else .ok (cached, frames)
    case error => exact ⟨.refl cached, h⟩
    case ok result =>
      have ⟨promoted, left⟩ := result
      have ⟨hs, hw⟩ := h.promoted hp
      dsimp only
      cases hd : promoted.dense
      case some dense =>
        have hstored := Holds.writeDense disk offset buf hd
        refine ⟨Nat.le_refl _, List.length_pos_of_ne_nil, hw.written hstored ?_, _, ?_, rfl⟩
        · intro dense' he
          cases he
          have hl := hw.dense dense hd
          have hm := @resize_max _ (0 : UInt8) dense (offset + buf.length)
          simp only [gt_iff_lt, hm]
          rw [length_overwrite (by simp), length_resize, hl]
        · rw [List.take_length]
          exact hs.trans hstored
      case none =>
        have ⟨copied, pages, err, he, hle, hall, hbyte, hpages⟩ := writePages_spec hw.toReadable hd left offset buf
        have hstored : promoted.Holds disk
            (fun pos => (placed offset (buf.take copied) pos).getD (promoted.byte disk pos))
            { promoted with pages } :=
          ⟨⟨_, _, rfl⟩, hbyte, fun pos hf => ⟨hd, hpages _ hf.right.left, hf.right.right⟩⟩
        rw [he]
        dsimp only
        split
        case h_1 => exact ⟨hs, hw⟩
        case h_2 hne heq =>
          cases heq
          have hlen : (buf.take copied).length = copied := by simpa using hle
          refine ⟨hle, ?_, ?_, _, hs.trans hstored, rfl⟩
          · intro hb
            have := List.length_pos_of_ne_nil hb
            cases err
            case none =>
              have := hall rfl
              omega
            case some err => exact Nat.pos_of_ne_zero fun hz => hne err hz rfl
          · have hwritten := hw.written hstored (fun dense hd' => by simp [hd] at hd')
            rwa [hlen] at hwritten

-- Writes that find enough frames go through.
theorem cachedPageForWrite_complete (h : cached.Readable disk) {frames : Nat} (hf : 0 < frames) (index : Nat)
    (preserve : Bool) : ∃ page left, cached.cachedPageForWrite disk frames index preserve = .ok (page, left) ∧
      frames ≤ left + 1 := by
  simp only [cachedPageForWrite]
  cases cached.pages index
  case some page => exact ⟨page, frames, rfl, Nat.le_succ _⟩
  case none =>
    dsimp only
    rw [if_neg hf.ne']
    split
    case isTrue hs =>
      have := h.persisted
      rw [DiskFile.extentAwareReadAt_eq h.bound (by omega)]
      simp only [List.length_map, List.length_range, ne_eq, not_true, if_false]
      exact ⟨_, _, rfl, by omega⟩
    case isFalse => exact ⟨_, _, rfl, by omega⟩

theorem writePages_complete (h : cached.Readable disk) {frames : Nat} (current : Nat) {buf : List UInt8}
    (hf : buf.length ≤ frames) : (writePages disk frames cached current buf).2.2 = none := by
  induction hn : buf.length using Nat.strong_induction_on generalizing cached frames current buf
  case h n hi =>
    rw [writePages]
    split
    case isTrue => rfl
    case isFalse he =>
      have hl := List.length_pos_of_ne_nil (by simpa using he)
      have hp := Nat.mod_lt current pageSize_pos
      dsimp only
      generalize hcount : min buf.length (pageSize - current % pageSize) = count
      have ⟨page, left, hw, hleft⟩ := cachedPageForWrite_complete h (by omega : 0 < frames) (current / pageSize)
        (current % pageSize ≠ 0 ∨ count ≠ pageSize)
      have hrest {cached : CachedRegularFile} (h : cached.Readable disk) :
          (writePages disk left cached (current + count) (buf.drop count)).2.2 = none :=
        hi (n - count) (by omega) h (current + count) (by rw [List.length_drop]; omega)
          (by rw [List.length_drop]; omega)
      rw [hw]
      exact hrest ⟨h.dense, h.persisted, h.bound⟩

theorem promoteDense_complete (cached : CachedRegularFile) (left : Nat) :
    ∃ frames promoted, cached.promoteDense frames = .ok (promoted, left) := by
  simp only [promoteDense]
  cases cached.dense
  case none => exact ⟨left, cached, rfl⟩
  case some dense =>
    refine ⟨DiskFile.blockCount dense.length + left, ?_⟩
    dsimp only
    rw [if_neg (by omega), Nat.add_sub_cancel_left]
    exact ⟨_, rfl⟩

theorem cachedRegularWrite_complete (h : cached.WellFormed disk) (he : cached.evicted = false) (offset : Nat)
    (buf : List UInt8) : ∃ frames, (cached.cachedRegularWrite disk frames offset buf).fst = .ok buf.length := by
  obtain ⟨frames, promoted, hp⟩ : ∃ frames promoted, (if offset + buf.length > DENSE_REGULAR_CACHE_LIMIT then
      cached.promoteDense frames else .ok (cached, frames)) = .ok (promoted, buf.length) := by
    split
    case isTrue => exact cached.promoteDense_complete buf.length
    case isFalse => exact ⟨buf.length, cached, rfl⟩
  refine ⟨frames, ?_⟩
  have ⟨_, hw⟩ := h.promoted hp
  simp only [cachedRegularWrite, he, Bool.false_eq_true, if_false, hp]
  cases hd : promoted.dense
  case some dense => rfl
  case none =>
    have ⟨copied, pages, err, hwrite, _, hall, _⟩ := writePages_spec hw.toReadable hd buf.length offset buf
    have hcomplete := writePages_complete hw.toReadable offset (Nat.le_refl buf.length)
    rw [hwrite] at hcomplete
    dsimp only at hcomplete
    subst hcomplete
    rw [hwrite, hall rfl]
    cases buf.length <;> rfl

-- A page that is cut off has its end in the middle.
theorem mem_last_page {newLen : Nat} (hp : newLen ≤ pos) (hc : pos / pageSize < DiskFile.blockCount newLen) :
    newLen % pageSize ≠ 0 ∧ pos / pageSize = newLen / pageSize := by
  have hl : pos / pageSize * pageSize < newLen := by
    rw [← Nat.not_le, ← DiskFile.blockCount_le]
    exact Nat.not_le.mpr hc
  have hm := Nat.div_add_mod' pos pageSize
  have hr := Nat.mod_lt pos pageSize_pos
  have he : newLen / pageSize = pos / pageSize := by
    apply Nat.div_eq_of_lt_le (Nat.le_of_lt hl)
    rw [Nat.add_mul]
    omega
  have hn := Nat.div_add_mod' newLen pageSize
  rw [he] at hn
  exact ⟨by omega, he.symm⟩

theorem byte_shrink (newLen : Nat) :
    (cached.shrink newLen).byte disk pos = if pos < newLen then cached.byte disk pos else 0 := by
  simp only [byte, shrink]
  cases hd : cached.dense
  case some dense =>
    simp only [Option.map_some, List.getD_eq_getElem?_getD, List.getElem?_take]
    split <;> rfl
  case none =>
    simp only [Option.map_none, Option.isSome_none, Bool.false_eq_true, if_false, truncatePages]
    by_cases hp : pos < newLen
    case pos =>
      have hc := DiskFile.div_lt_blockCount hp
      have hz : zeroFrom newLen pos = none := by simp [zeroFrom, Nat.not_le.mpr hp]
      rw [if_pos hp, if_neg (Nat.not_le.mpr hc)]
      by_cases hb : newLen % pageSize ≠ 0 ∧ pos / pageSize = newLen / pageSize
      case pos =>
        rw [if_pos hb]
        cases cached.pages (pos / pageSize)
        case none => simp [hp]
        case some page => simp [pageByte_pageUpdate, hz]
      case neg =>
        rw [if_neg hb]
        simp [hp]
    case neg =>
      have hz : zeroFrom newLen pos = some 0 := by simp [zeroFrom, Nat.not_lt.mp hp]
      rw [if_neg hp]
      by_cases hc : pos / pageSize ≥ DiskFile.blockCount newLen
      case pos =>
        rw [if_pos hc]
        simp [hp]
      case neg =>
        rw [if_neg hc, if_pos (mem_last_page (Nat.not_lt.mp hp) (Nat.not_le.mp hc))]
        cases cached.pages (pos / pageSize)
        case none => simp [hp]
        case some page => simp [pageByte_pageUpdate, hz]

theorem fromDisk_shrink {newLen : Nat} (h : (cached.shrink newLen).FromDisk pos) : cached.FromDisk pos := by
  have ⟨hd, hp, hl⟩ := h
  simp only [shrink, Option.map_eq_none_iff] at hd
  simp only [shrink, hd, Option.isSome_none, Bool.false_eq_true, if_false, truncatePages] at hp
  simp only [shrink] at hl
  refine ⟨hd, ?_, by omega⟩
  rw [if_neg (Nat.not_le.mpr (DiskFile.div_lt_blockCount (by omega)))] at hp
  split at hp
  case isTrue => simpa using hp
  case isFalse => exact hp

theorem byte_grow (h : cached.WellFormed disk) {newLen : Nat} (hn : cached.size ≤ newLen) :
    (cached.grow newLen).byte disk pos = cached.byte disk pos := by
  simp only [byte, grow]
  cases hd : cached.dense
  case none => rfl
  case some dense =>
    have hl := h.dense dense hd
    simp only [Option.map_some, getD_resize]
    split
    case isTrue => rfl
    case isFalse => rw [getD_of_length_le (by omega)]

theorem setSize_spec (h : cached.WellFormed disk) (newLen : Nat) : (cached.setSize newLen).WellFormed disk ∧
    ∀ pos, (cached.setSize newLen).byte disk pos = if pos < newLen then cached.byte disk pos else 0 := by
  have hp := h.persisted
  have hs := h.persisted_le
  simp only [setSize]
  split
  case isTrue hlt =>
    refine ⟨⟨⟨?_, ?_, h.bound⟩, ?_, ?_⟩, fun pos => byte_shrink newLen⟩
    · intro dense hd
      have ⟨dense', hd', he⟩ := Option.map_eq_some_iff.mp hd
      have := h.dense dense' hd'
      simp only [← he, shrink, List.length_take]
      omega
    · simp only [shrink]
      omega
    · simp only [shrink]
      omega
    · intro pos hpos
      exact (byte_shrink newLen).trans (if_neg (Nat.not_lt.mpr hpos))
  case isFalse hnlt =>
    have hz (pos : Nat) (hpos : newLen ≤ pos) : cached.byte disk pos = 0 := h.zero pos (by omega)
    have hb (pos : Nat) : cached.byte disk pos = if pos < newLen then cached.byte disk pos else 0 := by
      split
      case isTrue => rfl
      case isFalse hpos => exact hz pos (Nat.not_lt.mp hpos)
    split
    case isTrue hgt =>
      refine ⟨⟨⟨?_, h.persisted, h.bound⟩, ?_, ?_⟩, fun pos => ?_⟩
      · intro dense hd
        have ⟨dense', hd', he⟩ := Option.map_eq_some_iff.mp hd
        simp [← he, grow]
      · simp only [grow]
        omega
      · intro pos hpos
        rw [byte_grow h (Nat.le_of_lt hgt)]
        exact hz pos hpos
      · rw [byte_grow h (Nat.le_of_lt hgt)]
        exact hb pos
    case isFalse => exact ⟨⟨⟨h.dense, h.persisted, h.bound⟩, h.persisted_le, h.zero⟩, hb⟩

-- A file gets another size, or nothing has changed.
def ResizeSpec (disk : DiskFile) (cached : CachedRegularFile) (newLen : Nat) :
    Except SysErrNo Unit × CachedRegularFile → Prop
  | (.ok (), cached') => cached'.WellFormed disk ∧
      (∀ pos, cached'.byte disk pos = if pos < newLen then cached.byte disk pos else 0) ∧
      ∃ promoted, cached.Holds disk (cached.byte disk) promoted ∧ promoted.WellFormed disk ∧
        cached' = promoted.setSize newLen
  | (.error _, cached') => cached.Holds disk (cached.byte disk) cached' ∧ cached'.WellFormed disk

theorem cachedRegularResize_spec (h : cached.WellFormed disk) (frames newLen : Nat) :
    cached.ResizeSpec disk newLen (cached.cachedRegularResize frames newLen) := by
  simp only [cachedRegularResize]
  split
  case isTrue => exact ⟨.refl cached, h⟩
  case isFalse =>
    cases hp : if newLen > DENSE_REGULAR_CACHE_LIMIT then cached.promoteDense frames else .ok (cached, frames)
    case error => exact ⟨.refl cached, h⟩
    case ok result =>
      have ⟨promoted, left⟩ := result
      have ⟨hs, hw⟩ := h.promoted hp
      have ⟨hw', hb⟩ := setSize_spec hw newLen
      refine ⟨hw', fun pos => ?_, promoted, hs, hw, rfl⟩
      rw [hb pos, hs.byte pos]

end CachedRegularFile

end WllOs.Fs
