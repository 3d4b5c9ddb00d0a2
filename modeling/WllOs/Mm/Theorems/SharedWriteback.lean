import WllOs.Fs.Theorems.MemFileContent
import WllOs.Fs.Theorems.RegularFile
import WllOs.Mm.Theorems.CowResolve
import WllOs.Mm.Theorems.SharedPages

namespace WllOs

open Fs ( MAX_FILE_OFFSET)
open Function (update)

variable {mem : Ppn → Page}
variable {δ : Type} {files : VolumeFile δ} {env : WritebackEnv δ} {store store₁ store₂ : FileStore δ}
variable {page : SharedPage} {frames offset : Nat} {data : List UInt8}

namespace SharedPage

variable {file : FileDescriptor}

-- The end of a write exceeds the positions of a file exactly if the page does.
theorem toWrite_le_iff (h : page.toWrite mem = (file, offset, data)) (hl : 0 < page.length) :
    offset + page.length ≤ MAX_FILE_OFFSET ↔ page.position + page.length ≤ MAX_FILE_OFFSET := by
  have hm : Usize.max = 2 ^ 64 - 1 := by simp [Usize.max]
  cases h
  simp only [MAX_FILE_OFFSET]
  omega

theorem toWrite_offset (h : page.toWrite mem = (file, offset, data))
    (hl : page.position + page.length ≤ MAX_FILE_OFFSET) : offset = page.position := by
  have hm : Usize.max = 2 ^ 64 - 1 := by simp [Usize.max]
  cases h
  simp only [MAX_FILE_OFFSET] at hl
  omega

theorem toWrite_length (h : page.toWrite mem = (file, offset, data)) (ho : page.off + page.length ≤ pageSize) :
    data.length = page.length := by
  cases h
  simp only [List.length_take, List.length_drop, List.length_ofFn]
  omega

-- The bytes of a page that are written.
theorem toWrite_bytes (h : page.toWrite mem = (file, offset, data)) {i : Nat} {byte : UInt8}
    (hi : data[i]? = some byte) :
    i < page.length ∧ ∃ off : Fin pageSize, off.val = page.off + i ∧ byte = mem page.frame off := by
  cases h
  simp only [List.getElem?_take, List.getElem?_drop, List.getElem?_ofFn] at hi
  split at hi
  case isFalse => cases hi
  case isTrue hl =>
    split at hi
    case isFalse => cases hi
    case isTrue hp => exact ⟨hl, ⟨page.off + i, hp⟩, rfl, (Option.some.inj hi).symm⟩

end SharedPage

namespace StoredFile

def Sound (files : VolumeFile δ) : StoredFile δ → Prop
  | device         => True
  | memory content => ∃ bytes, content.Denotes bytes ∧ bytes.length ≤ ByteVector.maxLen
  | volume file    => files.Sound file

-- A write at a position that a file may have.
def writeAt (files : VolumeFile δ) (frames offset : Nat) (data : List UInt8) :
    StoredFile δ → Except SysErrNo Nat × StoredFile δ
  | device         => (.ok data.length, device)
  | memory content => (.ok data.length, memory ((content.writeAt offset data).elim content Prod.snd))
  | volume file    =>
    let (result, file) := files.write frames file offset data
    (result, volume file)

-- A file of which at most some bytes have changed, to the ones of the data.
structure Overwritten (files : VolumeFile δ) (file : StoredFile δ) (offset : Nat) (data : List UInt8)
    (file' : StoredFile δ) : Prop where
  sound : file'.Sound files
  device : file'.isDevice = file.isDevice
  length : file'.length files = file.length files
  bytes : ∀ pos, file'.byte files pos ≠ file.byte files pos →
    offset ≤ pos ∧ pos < file.length files ∧ data[pos - offset]? = some (file'.byte files pos)

theorem memory_writeAt {content : MemFileContent} {bytes : List UInt8} (h : content.Denotes bytes)
    (hb : bytes.length ≤ ByteVector.maxLen) (hl : offset + data.length ≤ MAX_FILE_OFFSET) :
    ((content.writeAt offset data).elim content Prod.snd).Denotes (ByteVector.writeAt bytes offset data) := by
  have ⟨content', hw, hd⟩ := h.writeAt hb hl
  rwa [hw]

theorem length_vector {bytes : List UInt8} :
    (ByteVector.writeAt bytes offset data).length = max bytes.length (offset + data.length) := by
  rw [ByteVector.writeAt, Buffer.length_overwrite (by simp), Buffer.length_resize]

-- A write within a file.
theorem writeAt_overwritten {file : StoredFile δ} (frames : Nat) (h : file.Sound files)
    (hl : ¬file.isDevice → offset + data.length ≤ MAX_FILE_OFFSET)
    (hf : ¬file.isDevice → offset + data.length ≤ file.length files) :
    Overwritten files file offset data (file.writeAt files frames offset data).snd := by
  cases file
  case device => exact ⟨trivial, rfl, rfl, fun _ hb => absurd rfl hb⟩
  case memory content =>
    have ⟨bytes, hd, hb⟩ := h
    have hfits : offset + data.length ≤ bytes.length := hd.len ▸ hf (by simp [isDevice])
    have hd' := memory_writeAt hd hb (hl (by simp [isDevice]))
    have hlen : (ByteVector.writeAt bytes offset data).length = bytes.length := by
      rw [length_vector, Nat.max_eq_left hfits]
    refine ⟨⟨_, hd', hlen ▸ hb⟩, rfl, ?_, fun pos hne => ?_⟩
    case refine_1 => exact hd'.len.trans (hlen.trans hd.len.symm)
    case refine_2 =>
      simp only [writeAt, byte, hd'.toVec_eq, hd.toVec_eq, length, hd.len] at hne ⊢
      rw [ByteVector.writeAt, Nat.max_eq_left hfits, Buffer.getD_overwrite (by simp; omega), Buffer.getD_resize]
        at hne ⊢
      by_cases hp : offset ≤ pos ∧ pos < offset + data.length
      case pos =>
        rw [if_pos hp, List.getD_eq_getElem?_getD, List.getElem?_eq_getElem (by omega)]
        exact ⟨hp.left, by omega, rfl⟩
      case neg =>
        rw [if_neg hp] at hne
        split at hne
        case isTrue => exact absurd rfl hne
        case isFalse hl => exact absurd (Buffer.getD_of_length_le (Nat.not_lt.mp hl)).symm hne
  case volume regular =>
    have hfits : offset + data.length ≤ files.size regular := hf (by simp [isDevice])
    have ⟨hs, hz, hb⟩ := files.within frames h hfits
    refine ⟨hs, rfl, hz, fun pos hne => ?_⟩
    have ⟨ho, hd⟩ := hb pos hne
    have ⟨hi, _⟩ := List.getElem?_eq_some_iff.mp hd
    exact ⟨ho, by simp only [length]; omega, hd⟩

-- Some write of the data goes through, and extends the file that is too short.
theorem writeAt_complete {file : StoredFile δ} (h : file.Sound files)
    (hl : ¬file.isDevice → offset + data.length ≤ MAX_FILE_OFFSET) (hn : data ≠ []) :
    ∃ frames, (file.writeAt files frames offset data).fst = .ok data.length ∧
      (¬file.isDevice → (file.writeAt files frames offset data).snd.length files =
        max (file.length files) (offset + data.length)) := by
  cases file
  case device => exact ⟨0, rfl, fun hd => absurd rfl hd⟩
  case memory content =>
    obtain ⟨bytes, hd, hb⟩ := h
    refine ⟨0, rfl, fun _ => ?_⟩
    simp only [writeAt, length, hd.len, (memory_writeAt hd hb (hl (by simp [isDevice]))).len]
    exact length_vector
  case volume regular =>
    obtain ⟨frames, file', hw, hz⟩ := files.complete h hn (hl (by simp [isDevice]))
    exact ⟨frames, by simp only [writeAt, hw], fun _ => by simp only [writeAt, hw]; exact hz⟩

end StoredFile

namespace FileStore

def Sound (files : VolumeFile δ) (store : FileStore δ) : Prop :=
  ∀ id file, store.files id = some file → file.Sound files

-- What a part of a writeback has done to the files: only bytes of a kind have changed.
structure Kept (files : VolumeFile δ) (store : FileStore δ) (changed : FileDescriptor.Identity → Nat → UInt8 → Prop)
    (store' : FileStore δ) : Prop where
  sound : store'.Sound files
  loopBacking : store'.loopBacking = store.loopBacking
  devices : ∀ id, (store'.files id).map (·.isDevice) = (store.files id).map (·.isDevice)
  length : ∀ id, store'.length files id = store.length files id
  bytes : ∀ id pos, store'.byte files id pos ≠ store.byte files id pos → changed id pos (store'.byte files id pos)

variable {changed : FileDescriptor.Identity → Nat → UInt8 → Prop}

theorem Kept.refl (h : store.Sound files) : store.Kept files changed store :=
  ⟨h, rfl, fun _ => rfl, fun _ => rfl, fun _ _ hb => absurd rfl hb⟩

theorem Kept.trans (h₁ : store.Kept files changed store₁) (h₂ : store₁.Kept files changed store₂) :
    store.Kept files changed store₂ where
  sound := h₂.sound
  loopBacking := h₂.loopBacking.trans h₁.loopBacking
  devices id := (h₂.devices id).trans (h₁.devices id)
  length id := (h₂.length id).trans (h₁.length id)
  bytes id pos hb := by
    by_cases he : store₂.byte files id pos = store₁.byte files id pos
    case pos =>
      rw [he] at hb ⊢
      exact h₁.bytes id pos hb
    case neg => exact h₂.bytes id pos he

theorem Kept.target_eq (h : store.Kept files changed store₁) (id : FileDescriptor.Identity) :
    store₁.target id = store.target id := by
  simp only [target, h.loopBacking]

theorem Kept.stored_isDevice (h : store.Kept files changed store₁) (page : SharedPage) :
    (store₁.stored page).map (·.isDevice) = (store.stored page).map (·.isDevice) := by
  simp only [stored, h.target_eq]
  cases store.target page.file.identity
  case none => rfl
  case some id => exact h.devices id

theorem takes_eq : store.Takes page = (page.file.isWritable && ((store.stored page).map (·.isDevice)).any fun device =>
    device || page.position + page.length ≤ MAX_FILE_OFFSET) := by
  rw [Takes, Option.any_map]

theorem Kept.takes_eq (h : store.Kept files changed store₁) : store₁.Takes page = store.Takes page := by
  rw [FileStore.takes_eq, FileStore.takes_eq, h.stored_isDevice]

theorem fits_iff : store.Fits files page ↔ ∀ id, store.target page.file.identity = some id →
    (store.stored page).map (·.isDevice) = some false → page.position + page.length ≤ store.length files id := by
  simp only [Fits, stored, length]
  cases store.target page.file.identity
  case none => simp
  case some id =>
    simp only [Option.bind_some, Option.some.injEq, forall_eq']
    cases store.files id
    case none => simp
    case some => simp

theorem Kept.fits_iff (h : store.Kept files changed store₁) : store₁.Fits files page ↔ store.Fits files page := by
  rw [FileStore.fits_iff, FileStore.fits_iff]
  simp only [h.target_eq, h.stored_isDevice, h.length]

variable {file : FileDescriptor}

-- A page that is not taken is not written.
theorem writeAt_not_takes (files : VolumeFile δ) (store : FileStore δ) (frames : Nat)
    (hw : page.toWrite mem = (file, offset, data)) (ht : ¬store.Takes page) (hl : 0 < page.length)
    (ho : page.off + page.length ≤ pageSize) :
    ∃ error, store.writeAt files frames file offset data = (.error error, store) := by
  have hlen := SharedPage.toWrite_length hw ho
  have hpos := SharedPage.toWrite_le_iff hw hl
  have hf : page.file = file := congrArg Prod.fst hw
  subst hf
  simp only [Takes, stored, Bool.and_eq_true, not_and] at ht
  simp only [writeAt, hlen]
  split
  case isTrue => exact ⟨_, rfl⟩
  case isFalse hr =>
    replace ht := ht (by simpa using hr)
    split
    case h_1 => exact ⟨_, rfl⟩
    case h_2 id hid =>
      rw [hid, Option.bind_some] at ht
      split
      case h_1 => exact ⟨_, rfl⟩
      case h_2 hs => rw [hs] at ht; exact absurd rfl ht
      case h_3 hs | h_4 hs =>
        rw [hs] at ht
        rw [if_pos (Nat.not_le.mp fun hle => ht (by simpa [StoredFile.isDevice] using hpos.mp hle))]
        exact ⟨_, rfl⟩

theorem writeAt_takes (files : VolumeFile δ) (frames : Nat) (hw : page.toWrite mem = (file, offset, data))
    (ht : store.Takes page) (hl : 0 < page.length) (ho : page.off + page.length ≤ pageSize) :
    ∃ id stored, store.target page.file.identity = some id ∧ store.files id = some stored ∧
      (¬stored.isDevice → page.position + page.length ≤ MAX_FILE_OFFSET) ∧
      store.writeAt files frames file offset data = ((stored.writeAt files frames offset data).fst,
        { store with files := update store.files id (some (stored.writeAt files frames offset data).snd) }) := by
  have hlen := SharedPage.toWrite_length hw ho
  have hpos := SharedPage.toWrite_le_iff hw hl
  have hf : page.file = file := congrArg Prod.fst hw
  subst hf
  simp only [Takes, FileStore.stored, Bool.and_eq_true, Option.any_eq_true, Option.bind_eq_some_iff,
    Bool.or_eq_true, decide_eq_true_eq] at ht
  have ⟨hwritable, stored, ⟨id, hid, hs⟩, hd⟩ := ht
  refine ⟨id, stored, hid, hs, fun hn => hd.resolve_left hn, ?_⟩
  rw [writeAt, if_neg (by simp [hwritable])]
  simp only [hid, hs, hlen]
  cases stored
  case device =>
    have hsame : update store.files id (some .device) = store.files := by rw [← hs, Function.update_eq_self]
    simp only [StoredFile.writeAt, hsame, hlen]
  case memory | volume =>
    have hle := hpos.mpr (hd.resolve_left (by simp [StoredFile.isDevice]))
    simp only [StoredFile.writeAt, if_neg (Nat.not_lt.mpr hle), hlen]

end FileStore

-- A byte of the file that a page puts at a position.
def SharedPage.Puts (page : SharedPage) (mem : Ppn → Page) (pos : Nat) (byte : UInt8) : Prop :=
  ∃ i < page.length, pos = page.position + i ∧
    ∃ off : Fin pageSize, off.val = page.off + i ∧ byte = mem page.frame off

namespace FileStore

-- What the writes of some pages may change.
def Changes (files : VolumeFile δ) (store : FileStore δ) (mem : Ppn → Page) (pages : List SharedPage)
    (id : FileDescriptor.Identity) (pos : Nat) (byte : UInt8) : Prop :=
  pos < store.length files id ∧ ∃ page ∈ pages, store.target page.file.identity = some id ∧
    page.position + page.length ≤ MAX_FILE_OFFSET ∧ page.Puts mem pos byte

variable {pages : List SharedPage}

theorem length_update {id other : FileDescriptor.Identity} {stored : StoredFile δ} :
    ({ store with files := update store.files id (some stored) } : FileStore δ).length files other =
      if other = id then stored.length files else store.length files other := by
  simp only [length, Function.update_apply]
  split <;> rfl

theorem byte_update {id other : FileDescriptor.Identity} {stored : StoredFile δ} {pos : Nat} :
    ({ store with files := update store.files id (some stored) } : FileStore δ).byte files other pos =
      if other = id then stored.byte files pos else store.byte files other pos := by
  simp only [byte, Function.update_apply]
  split <;> rfl

theorem Kept.writeAt (frames : Nat) (hk : store.Kept files (store.Changes files mem pages) store₁) (hm : page ∈ pages)
    (hw : page.toWrite mem = (file, offset, data)) (hf : store.Takes page → store.Fits files page)
    (hl : 0 < page.length) (ho : page.off + page.length ≤ pageSize) :
    store.Kept files (store.Changes files mem pages) (store₁.writeAt files frames file offset data).snd := by
  by_cases ht : store₁.Takes page
  case neg =>
    have ⟨_, he⟩ := writeAt_not_takes files store₁ frames hw ht hl ho
    rwa [he]
  case pos =>
    have ⟨id, stored, hid, hs, hp, he⟩ := writeAt_takes files frames hw ht hl ho
    have hlen := SharedPage.toWrite_length hw ho
    have hpos := SharedPage.toWrite_offset hw
    have hlength : store₁.length files id = stored.length files := by
      simp only [FileStore.length, hs, Option.elim_some]
    have hbyte (pos : Nat) : store₁.byte files id pos = stored.byte files pos := by
      simp only [FileStore.byte, hs, Option.elim_some]
    have hfits := hk.fits_iff.mpr (hf (hk.takes_eq ▸ ht))
    have hover : StoredFile.Overwritten files stored offset data (stored.writeAt files frames offset data).snd := by
      refine StoredFile.writeAt_overwritten frames (hk.sound id stored hs) (fun hn => ?_) fun hn => ?_
      case refine_1 => rw [hlen, hpos (hp hn)]; exact hp hn
      case refine_2 =>
        rw [hlen, hpos (hp hn)]
        exact hfits stored (by rw [FileStore.stored, hid, Option.bind_some, hs]) hn
    rw [he]
    refine hk.trans ⟨fun other file' hfile => ?_, rfl, fun other => ?_, fun other => ?_, fun other pos hb => ?_⟩
    case refine_1 =>
      simp only [Function.update_apply] at hfile
      split at hfile
      case isTrue => exact Option.some.inj hfile ▸ hover.sound
      case isFalse => exact hk.sound other file' hfile
    case refine_2 =>
      simp only [Function.update_apply]
      split
      case isTrue ho => rw [ho, hs, Option.map_some, Option.map_some, hover.device]
      case isFalse => rfl
    case refine_3 =>
      rw [length_update]
      split
      case isTrue ho => rw [ho, hlength, hover.length]
      case isFalse => rfl
    case refine_4 =>
      rw [byte_update] at hb ⊢
      split at hb
      case isFalse => exact absurd rfl hb
      case isTrue ho' =>
        subst ho'
        rw [if_pos rfl]
        rw [hbyte] at hb
        have ⟨hge, hlt, hd⟩ := hover.bytes pos hb
        have ⟨hi, off, hoff, hbyte'⟩ := SharedPage.toWrite_bytes hw hd
        have hn : ¬stored.isDevice := fun hd' => by
          cases stored
          case device => exact hb rfl
          case memory | volume => cases hd'
        refine ⟨by rwa [← hk.length, hlength], page, hm, by rw [← hk.target_eq]; exact hid, hp hn,
          pos - offset, hi, ?_, off, hoff, hbyte'⟩
        rw [← hpos (hp hn)]
        omega

-- The pages of a list lie within frames, and those that are taken before the first one that is not lie within files.
def Sized (pages : List SharedPage) : Prop :=
  ∀ page ∈ pages, 0 < page.length ∧ page.off + page.length ≤ pageSize

def FitsFirst (files : VolumeFile δ) (store : FileStore δ) (pages : List SharedPage) : Prop :=
  ∀ page ∈ pages.takeWhile store.Takes, store.Fits files page

theorem FitsFirst.head {rest : List SharedPage} (h : store.FitsFirst files (page :: rest)) (ht : store.Takes page) :
    store.Fits files page ∧ store.FitsFirst files rest := by
  rw [FitsFirst, List.takeWhile_cons, if_pos ht] at h
  exact ⟨h page List.mem_cons_self, fun page hp => h page (List.mem_cons_of_mem _ hp)⟩

-- The loop over the writes of an address space, given that files are left as they are so far.
theorem Kept.writeFiles (env : WritebackEnv δ) (spaces : Nat) (dirtyFiles : List FileDescriptor)
    (hk : store.Kept files (store.Changes files mem pages) store₁) {rest : List SharedPage}
    (hr : ∀ page ∈ rest, page ∈ pages) (hs : Sized rest) (hf : store.FitsFirst files rest) :
    (∀ store₂ ∈ (store₁.writeFiles files env spaces (rest.map (·.toWrite mem)) dirtyFiles).snd,
      store.Kept files (store.Changes files mem pages) store₂) ∧
    ∀ dirtyFiles', (store₁.writeFiles files env spaces (rest.map (·.toWrite mem)) dirtyFiles).fst = .ok dirtyFiles' →
      ∀ page ∈ rest, store.Takes page := by
  induction rest generalizing store₁ dirtyFiles
  case nil => exact ⟨nofun, nofun⟩
  case cons page rest hi =>
    obtain ⟨⟨file, offset, data⟩, hw⟩ : ∃ write, page.toWrite mem = write := ⟨_, rfl⟩
    have ⟨hl, ho⟩ := hs page List.mem_cons_self
    have hlen := SharedPage.toWrite_length hw ho
    have hne : data.isEmpty = false := by
      rw [List.isEmpty_eq_false_iff, ← List.length_pos_iff]
      omega
    rw [List.map_cons, hw, FileStore.writeFiles, hne, if_neg (by simp)]
    generalize env.frames spaces _ store₁ _ = frames
    have hkept := hk.writeAt frames (hr page List.mem_cons_self) hw
      (fun ht => (hf.head ht).left) hl ho
    by_cases ht : store.Takes page
    case neg =>
      have ⟨error, he⟩ := writeAt_not_takes files store₁ frames hw (hk.takes_eq ▸ ht) hl ho
      rw [he] at hkept ⊢
      exact ⟨fun store₂ hm => List.mem_singleton.mp hm ▸ hkept, nofun⟩
    case pos =>
      split
      case h_1 he =>
        rw [he] at hkept
        exact ⟨fun store₂ hm => List.mem_singleton.mp hm ▸ hkept, nofun⟩
      case h_2 written store₂ he =>
        rw [he] at hkept
        split
        case isTrue => exact ⟨fun store₂ hm => List.mem_singleton.mp hm ▸ hkept, nofun⟩
        case isFalse =>
          have hrest (p : SharedPage) (hp : p ∈ rest) : p ∈ pages := hr p (List.mem_cons_of_mem _ hp)
          have hsized : Sized rest := fun p hp => hs p (List.mem_cons_of_mem _ hp)
          refine ⟨fun store₃ hm => ?_, fun dirty' hd p hp => ?_⟩
          case refine_1 =>
            rcases List.mem_cons.mp hm with rfl | hm
            case inl => exact hkept
            case inr => exact (hi _ hkept hrest hsized (hf.head ht).right).left store₃ hm
          case refine_2 =>
            rcases List.mem_cons.mp hp with rfl | hp
            case inl => exact ht
            case inr => exact (hi _ hkept hrest hsized (hf.head ht).right).right dirty' hd p hp

-- The loop over the address spaces.
theorem Kept.writeBackSpaces (hk : store.Kept files (store.Changes files mem pages) store₁)
    {rest : List (List SharedPage)} (hr : ∀ page ∈ rest.flatten, page ∈ pages) (hs : Sized rest.flatten)
    (hf : store.FitsFirst files rest.flatten) :
    ∀ store₂ ∈ (store₁.writeBackSpaces files env (rest.map (·.map (·.toWrite mem)))).snd,
      store.Kept files (store.Changes files mem pages) store₂ := by
  induction rest generalizing store₁
  case nil => exact nofun
  case cons first rest hi =>
    have hfirst : store.FitsFirst files first := fun page hp =>
      hf page (by
        rw [List.flatten_cons, List.takeWhile_append]
        split
        case isTrue => exact List.mem_append_left _ (List.takeWhile_subset _ hp)
        case isFalse => exact hp)
    have ⟨hstores, htakes⟩ := hk.writeFiles env rest.length []
      (fun p hp => hr p (List.mem_append_left _ hp)) (fun p hp => hs p (List.mem_append_left _ hp)) hfirst
    simp only [List.map_cons, FileStore.writeBackSpaces, writeBackSharedFiles, List.length_map]
    cases hw : store₁.writeFiles files env rest.length (first.map (·.toWrite mem)) []
    case mk result stores =>
      rw [hw] at hstores htakes
      dsimp only at hstores htakes
      cases result
      case error => exact hstores
      case ok dirty =>
        dsimp only
        cases dirty.forM (env.sync rest.length)
        case error => exact hstores
        case ok =>
          have hlast : store.Kept files (store.Changes files mem pages) (stores.getLastD store₁) := by
            rcases List.mem_cons.mp (List.getLastD_mem_cons : stores.getLastD store₁ ∈ _) with hl | hl
            case inl => rw [hl]; exact hk
            case inr => exact hstores _ hl
          have hrest : store.FitsFirst files rest.flatten := fun page hp =>
            hf page (by
              rw [List.flatten_cons, List.takeWhile_append_of_pos (htakes dirty rfl)]
              exact List.mem_append_right _ hp)
          intro store₂ hm
          rcases List.mem_append.mp hm with hm | hm
          case inl => exact hstores store₂ hm
          case inr =>
            exact hi hlast (fun p hp => hr p (List.mem_append_right _ hp))
              (fun p hp => hs p (List.mem_append_right _ hp)) hrest store₂ hm

-- A write that goes through, and extends a file that is too short.
structure Completes (files : VolumeFile δ) (store : FileStore δ) (frames : Nat) (write : FileWrite) : Prop where
  result : (store.writeAt files frames write.1 write.2.1 write.2.2).fst = .ok write.2.2.length
  length : ∀ id, store.target write.1.identity = some id → (store.files id).map (·.isDevice) = some false →
    (store.writeAt files frames write.1 write.2.1 write.2.2).snd.length files id =
      max (store.length files id) (write.2.1 + write.2.2.length)

theorem exists_completes (h : store.Sound files) (mem : Ppn → Page) (ht : store.Takes page) (hl : 0 < page.length)
    (ho : page.off + page.length ≤ pageSize) : ∃ frames, store.Completes files frames (page.toWrite mem) := by
  obtain ⟨⟨file, offset, data⟩, hw⟩ : ∃ write, page.toWrite mem = write := ⟨_, rfl⟩
  have hlen := SharedPage.toWrite_length hw ho
  have hf : page.file = file := congrArg Prod.fst hw
  have ⟨id, stored, hid, hs, hp, _⟩ := writeAt_takes files 0 hw ht hl ho
  have ⟨frames, hr, hlength⟩ : ∃ frames, (stored.writeAt files frames offset data).fst = .ok data.length ∧
      (¬stored.isDevice → (stored.writeAt files frames offset data).snd.length files =
        max (stored.length files) (offset + data.length)) := by
    refine StoredFile.writeAt_complete (h id stored hs) (fun hn => ?_) fun he => ?_
    case refine_1 => rw [hlen, SharedPage.toWrite_offset hw (hp hn)]; exact hp hn
    case refine_2 => rw [he, List.length_nil] at hlen; omega
  have ⟨id', stored', hid', hs', _, he⟩ := writeAt_takes files frames hw ht hl ho
  cases hid.symm.trans hid'
  cases hs.symm.trans hs'
  rw [hw]
  refine ⟨frames, by rw [he]; exact hr, fun other ho hd => ?_⟩
  rw [← hf, hid] at ho
  cases ho
  have hn : ¬stored.isDevice := by simpa [hs] using hd
  rw [he, length_update, if_pos rfl, hlength hn]
  simp only [FileStore.length, hs, Option.elim_some]

-- Every write goes through that can.
def Plenty (files : VolumeFile δ) (env : WritebackEnv δ) : Prop :=
  (∀ spaces file, env.sync spaces file = .ok ()) ∧
    ∀ spaces pages (store : FileStore δ) write, (∃ frames, store.Completes files frames write) →
      store.Completes files (env.frames spaces pages store write) write

theorem exists_plenty (files : VolumeFile δ) : ∃ env : WritebackEnv δ, Plenty files env := by
  have hc (store : FileStore δ) (write : FileWrite) : ∃ frames, (∃ frames, store.Completes files frames write) →
      store.Completes files frames write := by
    by_cases he : ∃ frames, store.Completes files frames write
    case pos =>
      have ⟨frames, hf⟩ := he
      exact ⟨frames, fun _ => hf⟩
    case neg => exact ⟨0, fun h => absurd h he⟩
  choose frames hf using hc
  exact ⟨⟨fun _ _ => frames, fun _ _ => .ok ()⟩, fun _ _ => rfl, fun _ _ store write => hf store write⟩

variable {rest : List SharedPage} {spaces : Nat}

-- Where every write goes through that can, the first page that does not fit changes the length of its file.
theorem Kept.writeFiles_plenty (spaces : Nat) (dirtyFiles : List FileDescriptor)
    (hk : store.Kept files (store.Changes files mem pages) store₁)
    (hp : Plenty files env) (hr : ∀ page ∈ rest, page ∈ pages) (hs : Sized rest) :
    (store.FitsFirst files rest → (∀ page ∈ rest, store.Takes page) →
      ∃ dirtyFiles', (store₁.writeFiles files env spaces (rest.map (·.toWrite mem)) dirtyFiles).fst = .ok dirtyFiles') ∧
    (¬store.FitsFirst files rest →
      ∃ store₂ ∈ (store₁.writeFiles files env spaces (rest.map (·.toWrite mem)) dirtyFiles).snd,
        ∃ id, store₂.length files id ≠ store.length files id) := by
  induction rest generalizing store₁ dirtyFiles
  case nil => exact ⟨fun _ _ => ⟨_, rfl⟩, fun hn => absurd (fun page hm => by cases hm) hn⟩
  case cons page rest hi =>
    obtain ⟨⟨file, offset, data⟩, hw⟩ : ∃ write, page.toWrite mem = write := ⟨_, rfl⟩
    have ⟨hl, ho⟩ := hs page List.mem_cons_self
    have hlen := SharedPage.toWrite_length hw ho
    have hne : data.isEmpty = false := by
      rw [List.isEmpty_eq_false_iff, ← List.length_pos_iff]
      omega
    rw [List.map_cons, hw, FileStore.writeFiles, hne, if_neg (by simp)]
    by_cases ht : store.Takes page
    case neg =>
      refine ⟨fun _ hall => absurd (hall page List.mem_cons_self) ht, fun hn => absurd (fun p hm => ?_) hn⟩
      rw [List.takeWhile_cons, if_neg ht] at hm
      cases hm
    case pos =>
      have ht₁ : store₁.Takes page := hk.takes_eq ▸ ht
      have hc := hp.right spaces (rest.map (·.toWrite mem)).length store₁ (file, offset, data)
        (hw ▸ exists_completes hk.sound mem ht₁ hl ho)
      generalize env.frames spaces _ store₁ _ = frames at hc ⊢
      cases hwrite : store₁.writeAt files frames file offset data
      case mk result store₂ =>
        have hresult : result = .ok data.length := by simpa [hwrite] using hc.result
        subst hresult
        dsimp only
        rw [if_neg (fun hn => hn rfl)]
        generalize (if dirtyFiles.any _ then _ else _) = dirty
        by_cases hf : store.Fits files page
        case pos =>
          have hkept : store.Kept files (store.Changes files mem pages) store₂ := by
            have := hk.writeAt frames (hr page List.mem_cons_self) hw (fun _ => hf) hl ho
            rwa [hwrite] at this
          have hfirst : store.FitsFirst files (page :: rest) ↔ store.FitsFirst files rest := by
            refine ⟨fun h => (h.head ht).right, fun h p hm => ?_⟩
            rw [List.takeWhile_cons, if_pos ht] at hm
            rcases List.mem_cons.mp hm with rfl | hm
            case inl => exact hf
            case inr => exact h p hm
          have hrest (p : SharedPage) (hm : p ∈ rest) : p ∈ pages := hr p (List.mem_cons_of_mem _ hm)
          have hsized : Sized rest := fun p hm => hs p (List.mem_cons_of_mem _ hm)
          rw [hfirst]
          refine ⟨fun h hall => ?_, fun h => ?_⟩
          case refine_1 =>
            exact (hi dirty hkept hrest hsized).left h fun p hm => hall p (List.mem_cons_of_mem _ hm)
          case refine_2 =>
            have ⟨store₃, hm, hid⟩ := (hi dirty hkept hrest hsized).right h
            exact ⟨store₃, List.mem_cons_of_mem _ hm, hid⟩
        case neg =>
          refine ⟨fun h => absurd (h.head ht).left hf, fun _ => ⟨store₂, List.mem_cons_self, ?_⟩⟩
          have ⟨id, stored, hid, hs', hpos, _⟩ := writeAt_takes files 0 hw ht₁ hl ho
          have hf₁ : ¬store₁.Fits files page := fun h => hf (hk.fits_iff.mp h)
          simp only [Fits, FileStore.stored, hid, Option.bind_some, hs', Option.some.injEq, forall_eq',
            Classical.not_imp] at hf₁
          have hlength := hc.length id ((congrArg Prod.fst hw : page.file = file) ▸ hid) (by simpa [hs'] using hf₁.left)
          have hbefore : store₁.length files id = stored.length files := by
            simp only [FileStore.length, hs', Option.elim_some]
          refine ⟨id, ?_⟩
          rw [hwrite] at hlength
          rw [hlength, ← hk.length, hbefore, hlen, SharedPage.toWrite_offset hw (hpos hf₁.left)]
          have := hf₁.right
          dsimp only
          omega

theorem Plenty.sync (h : Plenty files env) (spaces : Nat) (dirtyFiles : List FileDescriptor) :
    dirtyFiles.forM (env.sync spaces) = .ok () := by
  induction dirtyFiles
  case nil => rfl
  case cons file dirtyFiles hi =>
    rw [List.forM, h.left]
    exact hi

theorem Kept.writeBackSpaces_plenty (hk : store.Kept files (store.Changes files mem pages) store₁)
    (hp : Plenty files env) {rest : List (List SharedPage)} (hr : ∀ page ∈ rest.flatten, page ∈ pages)
    (hs : Sized rest.flatten) (hn : ¬store.FitsFirst files rest.flatten) :
    ∃ store₂ ∈ (store₁.writeBackSpaces files env (rest.map (·.map (·.toWrite mem)))).snd,
      ∃ id, store₂.length files id ≠ store.length files id := by
  induction rest generalizing store₁
  case nil => exact absurd (fun page hm => by cases hm) hn
  case cons first rest hi =>
    have hrfirst (p : SharedPage) (hm : p ∈ first) : p ∈ pages := hr p (List.mem_append_left _ hm)
    have hsfirst : Sized first := fun p hm => hs p (List.mem_append_left _ hm)
    have ⟨hok, hlong⟩ := hk.writeFiles_plenty rest.length [] hp hrfirst hsfirst
    simp only [List.map_cons, FileStore.writeBackSpaces, writeBackSharedFiles, List.length_map]
    by_cases hf : store.FitsFirst files first
    case neg =>
      have ⟨store₂, hm, hid⟩ := hlong hf
      refine ⟨store₂, ?_, hid⟩
      cases hw : store₁.writeFiles files env rest.length (first.map (·.toWrite mem)) []
      case mk result stores =>
        rw [hw] at hm
        cases result
        case error => exact hm
        case ok dirty =>
          simp only [hp.sync]
          exact List.mem_append_left _ hm
    case pos =>
      by_cases ht : ∀ page ∈ first, store.Takes page
      case neg =>
        -- The writeback ends in this address space.
        apply absurd _ hn
        intro page hm
        rw [List.flatten_cons, List.takeWhile_append] at hm
        split at hm
        case isTrue hl =>
          have he : first.takeWhile store.Takes = first := (List.takeWhile_prefix _).eq_of_length hl
          exact absurd (List.takeWhile_eq_self_iff.mp he) ht
        case isFalse => exact hf page hm
      case pos =>
        have ⟨dirty, hd⟩ := hok hf ht
        have ⟨hstores, _⟩ := hk.writeFiles env rest.length [] hrfirst hsfirst hf
        cases hw : store₁.writeFiles files env rest.length (first.map (·.toWrite mem)) []
        case mk result stores =>
          rw [hw] at hd hstores
          dsimp only at hd hstores
          subst hd
          have hlast : store.Kept files (store.Changes files mem pages) (stores.getLastD store₁) := by
            rcases List.mem_cons.mp (List.getLastD_mem_cons : stores.getLastD store₁ ∈ _) with hl | hl
            case inl => rw [hl]; exact hk
            case inr => exact hstores _ hl
          have hrest : ¬store.FitsFirst files rest.flatten := by
            intro h
            apply hn
            intro page hm
            rw [List.flatten_cons, List.takeWhile_append_of_pos ht] at hm
            rcases List.mem_append.mp hm with hm | hm
            case inl => exact hf page (by rwa [List.takeWhile_eq_self_iff.mpr ht])
            case inr => exact h page hm
          have ⟨store₂, hm, hid⟩ := hi hlast (fun p hm => hr p (List.mem_append_right _ hm))
            (fun p hm => hs p (List.mem_append_right _ hm)) hrest
          refine ⟨store₂, ?_, hid⟩
          simp only [hp.sync]
          exact List.mem_append_right _ hm

end FileStore

namespace WritebackCall

variable {w : World} {call : WritebackCall} {condition : World → World.Op → Prop}

theorem mem_regions {region : WritebackRegion} (h : region ∈ call.regions w) : region.ms ∈ w.spaces := by
  cases call
  case range index start stop =>
    have ⟨ms, hm, he⟩ := List.mem_map.mp h
    rw [← he]
    exact List.mem_of_getElem? (Option.mem_toList.mp hm)
  case mappingsForFile | allMappings =>
    have ⟨ms, hm, he⟩ := List.mem_map.mp h
    rw [← he]
    exact hm

theorem writes_eq (h : World.Reachable condition w) (call : WritebackCall) :
    call.writes w = ((call.regions w).map (·.sharedPages)).map (·.map (·.toWrite w.mem)) := by
  rw [writes, List.map_map]
  exact List.map_congr_left fun region hm => region.collect_eq (h.areas _ (mem_regions hm)) w.mem

theorem flatten_eq (w : World) (call : WritebackCall) :
    ((call.regions w).map (·.sharedPages)).flatten = call.sharedPages w := by
  rw [sharedPages, List.flatMap_def]

theorem sized (w : World) (call : WritebackCall) : FileStore.Sized (call.sharedPages w) := by
  intro page hm
  have ⟨region, _, hp⟩ := List.mem_flatMap.mp hm
  exact region.length_pos hp

-- What the pages of the mappings change is what the mappings have at these positions.
theorem confined_of_kept (h : World.Reachable condition w)
    (hk : store.Kept files (store.Changes files w.mem (call.sharedPages w)) store₁) :
    store.Confined files w call store₁ where
  length := hk.length
  bytes id pos hb := by
    have ⟨hlt, page, hm, hid, hmax, i, hi, hp, off, hoff, hbyte⟩ := hk.bytes id pos hb
    have ⟨region, hr, hp'⟩ := List.mem_flatMap.mp hm
    have hmaps := WritebackRegion.maps_of_mem (h.areas _ (mem_regions hr)) hp'
      (by
        have hu : Usize.max = 2 ^ 64 - 1 := by simp [Usize.max]
        simp only [MAX_FILE_OFFSET] at hmax
        omega) hi
    rw [← hoff, ← hp] at hmaps
    exact ⟨hlt, region, hr, _, _, off, hid, hmaps, hbyte⟩

-- A writeback is confined to the files exactly if the pages that are taken, up to the first one that is not, lie within
-- their files.
theorem writesConfined_iff (files : VolumeFile δ) (store : FileStore δ) (call : WritebackCall)
    (h : World.Reachable condition w) (hs : store.Sound files) :
    (∀ env, ∀ store' ∈ (store.writeBackSpaces files env (call.writes w)).snd, store.Confined files w call store') ↔
      ∀ page ∈ (call.sharedPages w).takeWhile store.Takes, store.Fits files page := by
  have hrefl : store.Kept files (store.Changes files w.mem (call.sharedPages w)) store := .refl hs
  rw [writes_eq h]
  constructor
  case mpr =>
    intro hf env store' hm
    refine confined_of_kept h (hrefl.writeBackSpaces ?_ ?_ ?_ store' hm) <;> rw [flatten_eq]
    case refine_1 => exact fun _ hp => hp
    case refine_2 => exact call.sized w
    case refine_3 => exact hf
  case mp =>
    intro hc
    by_contra hn
    have ⟨env, hp⟩ := FileStore.exists_plenty files
    have hsized := call.sized w
    rw [← flatten_eq] at hn hsized
    have ⟨store', hm, id, hid⟩ := hrefl.writeBackSpaces_plenty hp (fun _ hp => flatten_eq w call ▸ hp) hsized hn
    exact hid ((hc env store' hm).length id)

end WritebackCall

-- The regular files of the volume, given that the cache has what the disk has not.
def Fs.RegularFile.volumeFile : VolumeFile Fs.RegularFile where
  size file := file.regularFileSize
  byte file := file.byte
  write frames file offset data := file.write frames offset data
  Sound file := file.Inv
  within {file offset data} frames h hl := by
    have ho : offset ≤ file.regularFileSize := by omega
    have hw := file.write_spec h frames data ho
    cases hr : file.write frames offset data
    case mk result file' =>
      rw [hr] at hw
      cases result
      case error =>
        exact ⟨hw.inv, hw.size, fun pos hb => absurd (hw.byte pos) hb⟩
      case ok n =>
        have ⟨hn, _, hc⟩ := hw
        refine ⟨hc.inv, hc.size.trans (Nat.max_eq_left (by omega)), fun pos hb => ?_⟩
        dsimp only at hb ⊢
        rw [hc.byte] at hb ⊢
        cases hp : Fs.placed offset (data.take n) pos
        case none => exact absurd (by rw [hp]; rfl) hb
        case some byte =>
          simp only [Fs.placed] at hp
          split at hp
          case isFalse => cases hp
          case isTrue ho =>
            rw [List.getElem?_take] at hp
            split at hp
            case isFalse => cases hp
            case isTrue => exact ⟨ho, hp⟩
  complete h hn hl := Fs.RegularFile.write_complete h hn hl

namespace WritebackCall

open World ( readWrite)

-- A page of a shared mapping of a file.
def sharedFile : FileDescriptor :=
  .memFile 1 true true

def mappedFile : World :=
  (World.init.step .newBare).step (.insertFramedArea 0 [7] 0x1000 0x2000 readWrite (.file sharedFile 0 true))

-- The file has some bytes.
def withBytes (bytes : List UInt8) : FileStore Fs.RegularFile where
  files id := if id = .memFile 1 then some (.memory (.inline bytes)) else none
  loopBacking _ := none

theorem withBytes_sound {bytes : List UInt8} (h : bytes.length ≤ ByteVector.maxLen) :
    (withBytes bytes).Sound Fs.RegularFile.volumeFile := by
  intro id file hf
  simp only [withBytes] at hf
  split at hf
  case isTrue => cases hf; exact ⟨bytes, MemFileContent.denotes_inline bytes, h⟩
  case isFalse => cases hf

theorem mappedFile_reachable : World.Reachable (fun _ _ => True) mappedFile := by
  have hbare : World.Reachable (fun _ _ => True) (World.init.step .newBare) := .step .init trivial trivial
  have hfresh : (World.init.step .newBare).Fresh [7] :=
    .of_owners hbare (by simp) (by decide_cbv)
  exact .step hbare ⟨hfresh, rfl, by decide⟩ trivial

theorem sharedPages_mappedFile :
    (range 0 0x1000 0x2000).sharedPages mappedFile = [⟨sharedFile, 0, pageSize, 7, 0⟩] := by
  decide_cbv

theorem mappedFile_confined : (range 0 0x1000 0x2000).sharedPages mappedFile = [⟨sharedFile, 0, pageSize, 7, 0⟩] ∧
    ∀ env, ∀ store' ∈ ((withBytes (List.replicate pageSize 0)).writeBackSpaces Fs.RegularFile.volumeFile env
      ((range 0 0x1000 0x2000).writes mappedFile)).snd,
      (withBytes (List.replicate pageSize 0)).Confined Fs.RegularFile.volumeFile mappedFile (range 0 0x1000 0x2000)
        store' := by
  refine ⟨sharedPages_mappedFile, (writesConfined_iff _ _ _ mappedFile_reachable
    (withBytes_sound (by rw [List.length_replicate]; decide))).mpr fun page hp file hf _ => ?_⟩
  have hm := List.takeWhile_subset _ hp
  rw [sharedPages_mappedFile, List.mem_singleton] at hm
  subst hm
  simp only [FileStore.stored, withBytes, sharedFile, FileDescriptor.identity, FileStore.target, Option.bind_some,
    if_pos, Option.some.injEq] at hf
  subst hf
  have hl : (List.replicate pageSize (0 : UInt8)).length = pageSize := List.length_replicate
  simp only [StoredFile.length, MemFileContent.len]
  omega

-- A file of a single byte gets as long as the page.
theorem short_not_confined : (withBytes [7]).Sound Fs.RegularFile.volumeFile ∧
    World.Reachable (fun _ _ => True) mappedFile ∧
    ¬∀ env, ∀ store' ∈ ((withBytes [7]).writeBackSpaces Fs.RegularFile.volumeFile env
      ((range 0 0x1000 0x2000).writes mappedFile)).snd,
      (withBytes [7]).Confined Fs.RegularFile.volumeFile mappedFile (range 0 0x1000 0x2000) store' := by
  refine ⟨withBytes_sound (by simp [ByteVector.maxLen]), mappedFile_reachable, fun h => ?_⟩
  let env : WritebackEnv Fs.RegularFile := ⟨fun _ _ _ _ => 0, fun _ _ => .ok ()⟩
  have hlength : ((withBytes [7]).writeBackSpaces Fs.RegularFile.volumeFile env
      ((range 0 0x1000 0x2000).writes mappedFile)).snd.map
        (·.length Fs.RegularFile.volumeFile (.memFile 1)) = [pageSize] := by
    decide +kernel
  obtain ⟨store', hm, hl⟩ := List.mem_map.mp (hlength ▸ List.mem_singleton_self pageSize)
  have := (h env store' hm).length (.memFile 1)
  rw [hl] at this
  exact absurd this (by decide)

end WritebackCall

end WllOs
