import WllOs.Fs.Theorems.PathString
import WllOs.Fs.Theorems.Vfat

namespace WllOs.Fs.Vfat

open Text ( slash dot )
open VfatVolume

namespace Image

variable {image : Image} {start cluster : Nat} {clusters : List Nat} {bytes data : List UInt8} {path : Text}
variable {entry : DirEntry}

theorem next_some {next : Nat} :
    image.next cluster = some next ↔ image.IsCluster cluster ∧ image.follow cluster = some next :=
  Option.ite_none_right_eq_some

theorem follow_of_chain {last : Nat} (h : Chain image.next start clusters last) :
    Chain image.follow start clusters last :=
  h.mono fun _ _ h => (next_some.mp h).right

theorem follow_none (h : ¬Continues cluster) : image.follow cluster = none := by
  rw [follow, if_neg fun hf => h ⟨hf.left, hf.right.left⟩]

theorem readClusterChain_ok : (image.volume.readClusterChain start).result = .ok data ↔
    ∃ clusters last, Chain image.follow start clusters last ∧ ¬Continues last ∧ clusters.length ≤ CHAIN_LIMIT ∧
      data = image.content clusters :=
  readChainFrom_ok

-- A chain is read if it is not too long.
theorem HasChain.read_iff (h : image.HasChain start clusters) :
    (image.volume.readClusterChain start).result = .ok data ↔
      clusters.length ≤ CHAIN_LIMIT ∧ data = image.content clusters := by
  obtain ⟨last, hchain, hend⟩ := h
  have hlast : ¬Continues last := fun hc => Nat.not_lt.mpr hend hc.right
  have hfollow := follow_of_chain hchain
  rw [readClusterChain_ok]
  constructor
  case mp =>
    rintro ⟨clusters', last', hchain', hlast', hlen, rfl⟩
    obtain ⟨rfl, _⟩ := hfollow.unique (follow_none hlast) hchain' (follow_none hlast')
    exact ⟨hlen, rfl⟩
  case mpr =>
    rintro ⟨hlen, rfl⟩
    exact ⟨clusters, last, hfollow, hlast, hlen, rfl⟩

-- What is made of a chain that has been read.
theorem HasChain.map_iff {β : Type} {f : List UInt8 → β} (h : image.HasChain start clusters) :
    (image.volume.readClusterChain start).result.map f = .ok (f (image.content clusters)) ↔
      clusters.length ≤ CHAIN_LIMIT := by
  constructor
  case mp =>
    intro hmap
    cases hr : (image.volume.readClusterChain start).result
    case error err => simp [hr, Except.map] at hmap
    case ok data => exact (h.read_iff.mp hr).left
  case mpr =>
    intro hlen
    rw [h.read_iff.mpr ⟨hlen, rfl⟩]
    rfl

theorem strays_iff {β : Type} (f : List UInt8 → β) :
    image.Strays start ↔ ∃ err, (image.volume.readClusterChain start).result.map f = .error err := by
  constructor
  case mp =>
    intro h
    cases hr : (image.volume.readClusterChain start).result
    case error err => exact ⟨err, rfl⟩
    case ok data =>
      obtain ⟨clusters, last, hchain, hlast, hlen, _⟩ := readClusterChain_ok.mp hr
      exact absurd hlen (Nat.not_le.mpr (h clusters last hchain hlast))
  case mpr =>
    intro ⟨err, hr⟩ clusters last hchain hlast
    by_contra hlen
    rw [readClusterChain_ok.mpr ⟨clusters, last, hchain, hlast, Nat.not_lt.mp hlen, rfl⟩] at hr
    cases hr

theorem two_le_of_hasChain (h : image.HasChain start clusters) : 2 ≤ start := by
  obtain ⟨last, hchain, hend⟩ := h
  cases hchain
  case nil => exact Nat.le_trans (by decide) hend
  case cons hs _ => exact (next_some.mp hs).left.left

theorem length_readAt {device : Device} {offset len : Nat} (h : device.readAt offset len = .ok data) :
    data.length = len := by
  simp only [Device.readAt] at h
  repeat' split at h
  all_goals cases h
  simp

theorem length_cluster (h : image.cluster? cluster = some bytes) : bytes.length = image.volume.clusterBytes := by
  obtain ⟨offset, _, h⟩ := Option.bind_eq_some_iff.mp h
  exact length_readAt (toOption_some.mp h)

theorem length_content {last : Nat} (h : Chain image.follow start clusters last) :
    (image.content clusters).length = clusters.length * image.volume.clusterBytes := by
  induction h
  case nil => simp [content]
  case cons hf _ hi =>
    obtain ⟨_, _, ⟨bytes, hbytes⟩, _⟩ := follow_some.mp hf
    rw [content_cons hbytes, List.length_append, hi, length_cluster hbytes, List.length_cons, Nat.succ_mul,
      Nat.add_comm]

theorem Sound.length_take (h : image.Sound entry clusters) :
    ((image.content clusters).take entry.size).length = entry.size := by
  obtain ⟨_, hsize, rfl⟩ | ⟨⟨_, hchain, _⟩, hsize⟩ := h
  case inl => simp [hsize]
  case inr => rw [List.length_take, length_content (follow_of_chain hchain), Nat.min_eq_left hsize]

-- A file that is not empty is read from its chain.
theorem readFile_eq (hl : image.volume.lookup path = .ok entry) (hd : entry.isDir = false) :
    image.volume.readFile path = if entry.cluster < 2 ∨ entry.size = 0 then .ok []
      else (image.volume.readClusterChain entry.cluster).result.map (List.take entry.size) := by
  have hbind (result : Except SysErrNo (List UInt8)) :
      (do let data ← result; Except.ok (data.take entry.size)) = result.map (List.take entry.size) := by
    cases result <;> rfl
  rw [readFile, hl]
  change (if entry.isDir then _ else _) = _
  rw [hd, if_neg Bool.false_ne_true, hbind]

theorem Sound.file_cases (h : image.Sound entry clusters) :
    entry.size = 0 ∨ (2 ≤ entry.cluster ∧ entry.size ≠ 0 ∧ image.HasChain entry.cluster clusters) := by
  by_cases hsize : entry.size = 0
  case pos => exact .inl hsize
  case neg =>
    obtain ⟨_, hzero, _⟩ | ⟨hchain, _⟩ := h
    case inl => exact absurd hzero hsize
    case inr => exact .inr ⟨two_le_of_hasChain hchain, hsize, hchain⟩

theorem file_iff (hl : image.volume.lookup path = .ok entry) (hd : entry.isDir = false) :
    image.FileFaithful entry (image.volume.readFile path) ↔ image.FileWhen entry := by
  have hread := readFile_eq hl hd
  constructor
  case mp =>
    intro h
    constructor
    case sound =>
      intro clusters hs
      obtain hzero | ⟨h2, hsize, hchain⟩ := hs.file_cases
      case inl => exact .inl hzero
      case inr =>
        have hok := (h.content clusters hs).left
        rw [hread, if_neg (by omega)] at hok
        exact .inr (hchain.map_iff.mp hok)
    case damaged =>
      intro hdamaged
      obtain ⟨err, herr⟩ := h.damaged hdamaged
      rw [hread] at herr
      split at herr
      case isTrue => cases herr
      case isFalse hc => exact ⟨by omega, by omega, (strays_iff _).mpr ⟨err, herr⟩⟩
  case mpr =>
    intro h
    constructor
    case content =>
      intro clusters hs
      refine ⟨?_, hs.length_take⟩
      rw [hread]
      obtain hzero | ⟨h2, hsize, hchain⟩ := hs.file_cases
      case inl => rw [if_pos (.inr hzero), hzero, List.take_zero]
      case inr =>
        have hlen := (h.sound clusters hs).resolve_left hsize
        rw [if_neg (by omega)]
        exact hchain.map_iff.mpr hlen
    case damaged =>
      intro hdamaged
      obtain ⟨h2, hsize, hstrays⟩ := h.damaged hdamaged
      rw [hread, if_neg (by omega)]
      exact (strays_iff _).mp hstrays

-- The chain of a directory is read as a whole.
theorem dirChain_iff {result : Except SysErrNo (List DirEntryRecord)}
    (h : result = if start < 2 then .ok [] else
      (image.volume.readClusterChain start).result.map fun data => recordsOf (parseDirEntries data)) :
    image.DirFaithful start result ↔ image.DirWhen start := by
  constructor
  case mp =>
    intro hf
    constructor
    case sound =>
      intro clusters hchain
      have hok := hf.content clusters hchain
      rw [h, if_neg (Nat.not_lt.mpr (two_le_of_hasChain hchain))] at hok
      exact hchain.map_iff.mp hok
    case damaged =>
      intro hdamaged
      obtain ⟨err, herr⟩ := hf.damaged hdamaged
      rw [h] at herr
      split at herr
      case isTrue => cases herr
      case isFalse hc => exact ⟨Nat.not_lt.mp hc, (strays_iff _).mpr ⟨err, herr⟩⟩
  case mpr =>
    intro hw
    constructor
    case content =>
      intro clusters hchain
      rw [h, if_neg (Nat.not_lt.mpr (two_le_of_hasChain hchain))]
      exact hchain.map_iff.mpr (hw.sound clusters hchain)
    case damaged =>
      intro hdamaged
      obtain ⟨h2, hstrays⟩ := hw.damaged hdamaged
      rw [h, if_neg (Nat.not_lt.mpr h2)]
      exact (strays_iff _).mp hstrays

theorem two_le_rootCluster (h : image.geometry.fatKind = .fat32) : 2 ≤ image.sector.rootCluster := by
  have ⟨_, hg⟩ := mount_ok image.accepted
  simp only [BootSector.geometry, Option.ite_none_left_eq_some, Option.some.injEq] at hg
  obtain ⟨_, _, hkind, hg⟩ := hg
  rw [← hg] at h
  exact Nat.not_lt.mp fun hlt => hkind ⟨h, hlt⟩

theorem lookup_normalizePath (volume : VfatVolume) (path : Text) :
    volume.lookup path.normalizePath = volume.lookup path := by
  rw [lookup, Text.normalizePath_idempotent, lookup]

theorem readDirForPath_entry {volume : VfatVolume} (hroot : path.normalizePath ≠ [slash])
    (hl : volume.lookup path = .ok entry) (hd : entry.isDir) :
    volume.readDirForPath path = volume.readDirEntry entry := by
  rw [readDirForPath, if_neg hroot, lookup_normalizePath, hl]
  change (if !entry.isDir then _ else _) = _
  rw [hd]
  rfl

-- Listing a directory lists its chain.
theorem listDir_eq (h : image.DirAt path start) : image.volume.listDir path = if start < 2 then .ok [] else
    (image.volume.readClusterChain start).result.map fun data => recordsOf (parseDirEntries data) := by
  have hmap (result : Except SysErrNo (List UInt8)) :
      (result.map parseDirEntries).map recordsOf = result.map fun data => recordsOf (parseDirEntries data) := by
    cases result <;> rfl
  rw [VfatVolume.listDir]
  cases h
  case root hroot hkind =>
    have hk : image.volume.fatKind = .fat32 := hkind
    rw [readDirForPath, if_pos hroot, if_neg (Nat.not_lt.mpr (two_le_rootCluster hkind)), readRootDir, hk]
    exact hmap _
  case entry entry hroot hfound hdir =>
    rw [readDirForPath_entry hroot hfound hdir, readDirEntry]
    split
    case isTrue => rfl
    case isFalse => exact hmap _

theorem dir_iff (h : image.DirAt path start) :
    image.DirFaithful start (image.volume.listDir path) ↔ image.DirWhen start :=
  dirChain_iff (listDir_eq h)

end Image

section

variable {path name : Text} {names rest : List Text} {volume : VfatVolume} {entries : List DirEntry} {entry : DirEntry}

theorem components_render (h : ∀ name ∈ names, Text.IsName name) : components (Text.render true names) = names := by
  rw [components, Text.render, if_pos rfl, Text.splitOn_cons_slash]
  cases names
  case nil => simp [Text.join]
  case cons name names =>
    rw [Text.join, List.splitOn_intercalate slash (fun n hm => (h n hm).slash) (List.cons_ne_nil _ _)]
    have hne (n : Text) (hm : n ∈ name :: names) : n ≠ [] := (h n hm).ne_nil
    simpa using hne

theorem components_normalizePath (h : path.isAbsolute) : components path.normalizePath = path.names := by
  rw [Text.normalizePath_eq, h, components_render fun _ => .of_mem_names]

theorem normalizePath_eq_slash (h : path.isAbsolute) : path.normalizePath = [slash] ↔ path.names = [] := by
  rw [Text.normalizePath_eq, h, Text.render_eq_slash fun _ => .of_mem_names]

-- A name is the last component of the path that it makes up.
theorem names_child (h : Text.IsName name) : Text.names (path ++ [slash] ++ name) = path.names ++ [name] := by
  have hparts : Text.parts name = [.name name] := by
    have := @Text.parts_join [name] (by simpa using h) (List.cons_ne_nil _ _)
    simpa [Text.join] using this
  rw [List.append_assoc, List.singleton_append, Text.names_append, hparts]
  rfl

theorem isAbsolute_child (h : path.isAbsolute) : Text.isAbsolute (path ++ [slash] ++ name) := by
  obtain ⟨rest, rfl⟩ := Text.isAbsolute_iff.mp h
  rfl

-- The directory that the loop of `lookup` comes to.
def dirIn (volume : VfatVolume) (entries : List DirEntry) : List Text → Except SysErrNo (List DirEntry)
  | []    => .ok entries
  | names => do
    let entry ← volume.lookupIn entries names
    if !entry.isDir then .error .ENOTDIR else volume.readDirEntry entry

-- What the loop does with the entry of a component before it goes on.
def enter (volume : VfatVolume) (entries : List DirEntry) (component : Text) : Except SysErrNo (List DirEntry) := do
  let entry ← findEntry entries component
  if !entry.isDir then .error .ENOTDIR else volume.readDirEntry entry

theorem lookupIn_cons (h : rest ≠ []) :
    volume.lookupIn entries (name :: rest) = enter volume entries name >>= (volume.lookupIn · rest) := by
  obtain ⟨next, rest, rfl⟩ := List.exists_cons_of_ne_nil h
  rw [lookupIn, enter]
  cases findEntry entries name
  case error err => rfl
  case ok entry =>
    change (if !entry.isDir then _ else _) = (if !entry.isDir then _ else _) >>= _
    split <;> rfl

theorem dirIn_cons : dirIn volume entries (name :: rest) = enter volume entries name >>= (dirIn volume · rest) := by
  cases rest
  case nil =>
    change enter volume entries name = enter volume entries name >>= Except.ok
    cases enter volume entries name <;> rfl
  case cons next rest =>
    rw [dirIn, lookupIn_cons (List.cons_ne_nil _ _)]
    cases enter volume entries name <;> rfl
    nofun

-- A name is looked up in the directory above it.
theorem lookupIn_child :
    volume.lookupIn entries (names ++ [name]) = dirIn volume entries names >>= (findEntry · name) := by
  induction names generalizing entries
  case nil => rfl
  case cons component names hi =>
    rw [List.cons_append, lookupIn_cons (by simp), dirIn_cons]
    cases enter volume entries component
    case error err => rfl
    case ok entries => exact hi

theorem lookup_eq (h : path.isAbsolute) :
    volume.lookup path = volume.readRootDir >>= (volume.lookupIn · path.names) := by
  rw [lookup, components_normalizePath h]

theorem readDirForPath_eq (h : path.isAbsolute) :
    volume.readDirForPath path = volume.readRootDir >>= (dirIn volume · path.names) := by
  rw [readDirForPath]
  split
  case isTrue hroot =>
    rw [(normalizePath_eq_slash h).mp hroot]
    cases volume.readRootDir <;> rfl
  case isFalse hroot =>
    obtain ⟨name, rest, he⟩ := List.exists_cons_of_ne_nil (mt (normalizePath_eq_slash h).mpr hroot)
    rw [Image.lookup_normalizePath, lookup_eq h, he]
    cases volume.readRootDir <;> rfl

theorem lookup_child (h : path.isAbsolute) (hn : Text.IsName name) :
    volume.lookup (path ++ [slash] ++ name) = volume.readDirForPath path >>= (findEntry · name) := by
  rw [lookup_eq (isAbsolute_child h), names_child hn, readDirForPath_eq h]
  simp only [lookupIn_child]
  cases volume.readRootDir <;> rfl

theorem findEntry_ok : findEntry entries name = .ok entry ↔
    entries.find? (fun entry => eqIgnoreAsciiCase entry.name name) = some entry := by
  rw [findEntry]
  cases entries.find? fun entry => eqIgnoreAsciiCase entry.name name <;> simp

-- An entry with a name of its own is found.
theorem ProperNames.find (h : ProperNames entries) (hm : entry ∈ entries) :
    findEntry entries entry.name = .ok entry := by
  rw [findEntry_ok]
  have hd := h.distinct
  clear h
  induction entries
  case nil => cases hm
  case cons first entries hi =>
    have ⟨hfirst, hd⟩ := List.pairwise_cons.mp hd
    rw [List.find?_cons]
    cases hm
    case head => simp [eqIgnoreAsciiCase]
    case tail hm => simp [hfirst entry hm, hi hm hd]

theorem shortName_ne_nil {raw : List UInt8} (h : shortName raw = some name) : name ≠ [] := by
  simp only [shortName, Option.ite_none_left_eq_some, Option.bind_eq_bind, Option.bind_eq_some_iff,
    Option.some.injEq] at h
  obtain ⟨_, base, _, hb, ext, _, rfl⟩ := h
  simp only [toAsciiLowercase, ne_eq, List.map_eq_nil_iff]
  split
  case isTrue => exact hb
  case isFalse => simp

theorem name_ne_nil {raws : List (List UInt8)} (h : entry ∈ parseEntries raws) : entry.name ≠ [] := by
  induction raws
  case nil => cases h
  case cons raw raws hi =>
    rw [parseEntries] at h
    split at h
    case isTrue => cases h
    case isFalse =>
      split at h
      case isTrue => exact hi h
      case isFalse =>
        split at h
        case h_1 => exact hi h
        case h_2 name hn =>
          cases h
          case head => exact shortName_ne_nil hn
          case tail h => exact hi h

-- The entries of a directory are read from bytes.
def Parsed (entries : List DirEntry) : Prop :=
  ∃ data, entries = parseDirEntries data

theorem parsed_map {result : Except SysErrNo (List UInt8)} (h : result.map parseDirEntries = .ok entries) :
    Parsed entries := by
  cases result
  case error err => cases h
  case ok data =>
    cases h
    exact ⟨data, rfl⟩

theorem parsed_readRootDir (h : volume.readRootDir = .ok entries) : Parsed entries := by
  rw [readRootDir] at h
  split at h <;> exact parsed_map h

theorem parsed_readDirEntry (h : volume.readDirEntry entry = .ok entries) : Parsed entries := by
  rw [readDirEntry] at h
  split at h
  case isTrue =>
    cases h
    exact ⟨[], rfl⟩
  case isFalse => exact parsed_map h

theorem parsed_readDirForPath (h : volume.readDirForPath path = .ok entries) : Parsed entries := by
  rw [readDirForPath] at h
  split at h
  case isTrue => exact parsed_readRootDir h
  case isFalse =>
    obtain ⟨entry, _, h⟩ := Fallible.bind_ok h
    exact parsed_readDirEntry (Fallible.guard_ok h).right

theorem isName_iff : Text.IsName name ↔ name ≠ [] ∧ name ≠ [dot] ∧ name ≠ [dot, dot] ∧ slash ∉ name := by
  constructor
  case mp =>
    intro ⟨hp, hs⟩
    have ⟨_, hne, hd, hdd⟩ := Text.toPart_eq_name.mp hp
    exact ⟨hne, hd, hdd, hs⟩
  case mpr =>
    intro ⟨hne, hd, hdd, hs⟩
    exact ⟨Text.toPart_eq_name.mpr ⟨rfl, hne, hd, hdd⟩, hs⟩

theorem mem_recordsOf {record : DirEntryRecord} : record ∈ recordsOf entries ↔
    ∃ entry ∈ entries, entry.name ≠ [dot] ∧ entry.name ≠ [dot, dot] ∧ record = ⟨entry.name, entry.isDir⟩ := by
  simp only [recordsOf, List.mem_map, List.mem_filter, decide_eq_true_eq, and_assoc, @eq_comm _ record]

-- A name is that of the directory itself or of the one above only if it is written like it.
theorem eq_of_lowercase_dots {n : Nat} (h : toAsciiLowercase name = List.replicate n dot) :
    name = List.replicate n dot := by
  have hbyte (byte : UInt8) (hb : (if 0x41 ≤ byte ∧ byte ≤ 0x5a then byte + 0x20 else byte) = dot) : byte = dot := by
    split at hb
    case isTrue hu =>
      have hlow := UInt8.le_iff_toNat_le.mp hu.left
      have hhigh := UInt8.le_iff_toNat_le.mp hu.right
      have hsum := congrArg UInt8.toNat hb
      simp only [UInt8.toNat_add, dot, UInt8.toNat_ofNat] at hlow hhigh hsum
      omega
    case isFalse => exact hb
  induction name generalizing n
  case nil =>
    cases n
    case zero => rfl
    case succ n => cases h
  case cons byte name hi =>
    cases n
    case zero => cases h
    case succ n =>
      simp only [toAsciiLowercase, List.map_cons, List.replicate_succ, List.cons.injEq] at h
      rw [hbyte byte h.left, hi h.right, List.replicate_succ]

-- Listing agrees with looking up, on every volume.
theorem agrees (volume : VfatVolume) (h : path.isAbsolute) : volume.Agrees path where
  listed := by
    intro entries he hproper records hr record hm
    rw [VfatVolume.listDir, he] at hr
    cases hr
    obtain ⟨entry, hentry, hd, hdd, rfl⟩ := mem_recordsOf.mp hm
    obtain ⟨data, rfl⟩ := parsed_readDirForPath he
    have hn : Text.IsName entry.name := isName_iff.mpr ⟨name_ne_nil hentry, hd, hdd, hproper.noSlash entry hentry⟩
    have hlookup : volume.lookup (path ++ [slash] ++ entry.name) = .ok entry := by
      rw [lookup_child h hn, he]
      exact hproper.find hentry
    have hroot : Text.normalizePath (path ++ [slash] ++ entry.name) ≠ [slash] := by
      rw [ne_eq, normalizePath_eq_slash (isAbsolute_child h), names_child hn]
      simp
    refine ⟨entry, hlookup, rfl, rfl, ?_⟩
    rw [metadata, if_neg hroot, hlookup]
    rfl
  found := by
    intro name entry hne hs hd hdd hl
    rw [lookup_child h (isName_iff.mpr ⟨hne, hd, hdd, hs⟩)] at hl
    obtain ⟨entries, he, hf⟩ := Fallible.bind_ok hl
    have hfind := findEntry_ok.mp hf
    have heq := List.find?_some hfind
    have hdots (n : Nat) (hname : name ≠ List.replicate n dot) : entry.name ≠ List.replicate n dot := by
      intro hen
      apply hname
      apply eq_of_lowercase_dots
      simp only [eqIgnoreAsciiCase, decide_eq_true_eq] at heq
      rw [← heq, hen]
      simp [toAsciiLowercase, dot]
    refine ⟨recordsOf entries, by rw [VfatVolume.listDir, he]; rfl, ⟨entry.name, entry.isDir⟩, mem_recordsOf.mpr ?_, heq, rfl⟩
    exact ⟨entry, List.mem_of_find?_eq_some hfind, hdots 1 hd, hdots 2 hdd, rfl⟩

end

-- A volume with FAT16 of 5000 sectors. Its only file has 600 bytes and a chain of one cluster of 512 bytes.
def shortFile : Device where
  range := ⟨0, some (5000 * 512), by simp [Usize.max]⟩
  raw.fault _ _ := none
  raw.byte pos :=
    match pos with
    | 12    => 0x02
    | 13    => 1
    | 14    => 1
    | 16    => 1
    | 17    => 16
    | 19    => 0x88
    | 20    => 0x13
    | 22    => 20
    | 510   => 0x55
    | 511   => 0xaa
    | 516   => 0xff
    | 517   => 0xff
    | 10752 => 0x41
    | 10753 => 0x20
    | 10754 => 0x20
    | 10755 => 0x20
    | 10756 => 0x20
    | 10757 => 0x20
    | 10758 => 0x20
    | 10759 => 0x20
    | 10760 => 0x20
    | 10761 => 0x20
    | 10762 => 0x20
    | 10778 => 2
    | 10780 => 0x58
    | 10781 => 0x02
    | _     => 0

set_option maxRecDepth 8000 in
theorem shortFile_accepted :
    shortFile.mount = .ok (⟨512, 1, 1, 1, 16, 5000, 20, 0⟩, ⟨22, 21, 4978, .fat16⟩) := by
  decide_cbv

def shortImage : Image :=
  ⟨shortFile, _, _, shortFile_accepted⟩

end WllOs.Fs.Vfat
