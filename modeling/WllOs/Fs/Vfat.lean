import WllOs.Library.Fallible
import WllOs.Fs.BlockCache
import WllOs.Fs.Objects
import WllOs.Fs.Path

namespace WllOs.Fs.Vfat

open Buffer ( slice )
open Text ( slash dot )

def SECTOR_SIZE : Nat := 512
def ATTR_READ_ONLY : UInt8 := 0x01
def ATTR_DIRECTORY : UInt8 := 0x10
def ATTR_VOLUME_ID : UInt8 := 0x08
def ATTR_LONG_NAME : UInt8 := 0x0f
def END_OF_CHAIN : Nat := 0x0ffffff8

-- The loop over a chain gives up when it has read more clusters.
@[irreducible]
def CHAIN_LIMIT : Nat := 1000000

-- The bytes of a device, and what reading some of them fails with.
structure RawBlockDevice where
  byte : Nat → UInt8
  fault : Nat → Nat → Option SysErrNo

structure Device where
  range : BlockRange
  raw : RawBlockDevice

def Device.readAt (device : Device) (offset len : Nat) : Except SysErrNo (List UInt8) :=
  match device.range.checkedAbsRange offset len with
  | none     => .error .EINVAL
  | some abs =>
    match device.raw.fault abs len with
    | some err => .error err
    | none     => .ok ((List.range len).map fun i => device.raw.byte (abs + i))

inductive FatKind
  | fat16
  | fat32
  deriving DecidableEq

structure Metadata where
  isDir : Bool
  readonly : Bool
  size : Nat
  deriving DecidableEq

structure DirEntry where
  name : Text
  isDir : Bool
  readonly : Bool
  cluster : Nat
  size : Nat
  deriving DecidableEq

-- What is listed of an entry.
structure DirEntryRecord where
  name : Text
  isDir : Bool
  deriving DecidableEq

structure VfatVolume where
  device : Device
  bytesPerSector : Nat
  sectorsPerCluster : Nat
  reservedSectors : Nat
  rootEntryCount : Nat
  rootCluster : Nat
  firstDataSector : Nat
  rootDirSector : Nat
  fatKind : FatKind

def readU16Le (buf : List UInt8) (off : Nat) : Option Nat :=
  if off + 2 ≤ buf.length then some (fromLeBytes (slice buf off 2)) else none

def readU32Le (buf : List UInt8) (off : Nat) : Option Nat :=
  if off + 4 ≤ buf.length then some (fromLeBytes (slice buf off 4)) else none

def validPowerOfTwo (value min max : Nat) : Bool :=
  value ≥ min && value ≤ max && 2 ^ value.log2 = value

-- `char::is_whitespace`
def isWhitespace (char : Char) : Bool :=
  (0x9 ≤ char.val && char.val ≤ 0xd) || char.val = 0x20 || char.val = 0x85 || char.val = 0xa0 || char.val = 0x1680 ||
    (0x2000 ≤ char.val && char.val ≤ 0x200a) || char.val = 0x2028 || char.val = 0x2029 || char.val = 0x202f ||
    char.val = 0x205f || char.val = 0x3000

-- `str::from_utf8` and `trim_end`
def trimmed (raw : List UInt8) : Option Text :=
  (String.fromUTF8? ⟨raw.toArray⟩).map fun text => (text.toList.rdropWhile isWhitespace).flatMap String.utf8EncodeChar

def toAsciiLowercase (text : Text) : Text :=
  text.map fun byte => if 0x41 ≤ byte ∧ byte ≤ 0x5a then byte + 0x20 else byte

def eqIgnoreAsciiCase (left right : Text) : Bool :=
  toAsciiLowercase left = toAsciiLowercase right

def shortName (raw : List UInt8) : Option Text :=
  if raw.length < 11 ∨ raw.getD 0 0 = 0x00 ∨ raw.getD 0 0 = 0xe5 then none
  else do
    let base ← trimmed (raw.take 8)
    if base = [] then none
    else
      let ext ← trimmed (slice raw 8 3)
      some (toAsciiLowercase (if ext = [] then base else base ++ [dot] ++ ext))

-- The fields of the boot sector.
structure BootSector where
  bytesPerSector : Nat
  sectorsPerCluster : Nat
  reservedSectors : Nat
  fatCount : Nat
  rootEntryCount : Nat
  totalSectors : Nat
  fatSizeSectors : Nat
  rootCluster : Nat
  deriving DecidableEq

-- What is computed from the fields.
structure Geometry where
  firstDataSector : Nat
  rootDirSector : Nat
  clusterCount : Nat
  fatKind : FatKind
  deriving DecidableEq

namespace BootSector

-- The part of `open` that reads the fields and checks them.
def parse (boot : List UInt8) : Option BootSector := do
  let bytesPerSector ← readU16Le boot 11
  let sectorsPerCluster := (boot.getD 13 0).toNat
  let reservedSectors ← readU16Le boot 14
  let fatCount := (boot.getD 16 0).toNat
  let rootEntryCount ← readU16Le boot 17
  let totalSectors16 ← readU16Le boot 19
  let fatSize16 ← readU16Le boot 22
  let totalSectors32 ← readU32Le boot 32
  let fatSize32 ← readU32Le boot 36
  let rootCluster := (readU32Le boot 44).getD 2
  if !validPowerOfTwo bytesPerSector 512 4096 || !validPowerOfTwo sectorsPerCluster 1 128 || reservedSectors = 0 ||
      fatCount = 0 then
    none
  else
    let totalSectors := if totalSectors16 ≠ 0 then totalSectors16 else totalSectors32
    let fatSizeSectors := if fatSize16 ≠ 0 then fatSize16 else fatSize32
    if totalSectors = 0 ∨ fatSizeSectors = 0 then none
    else
      some { bytesPerSector, sectorsPerCluster, reservedSectors, fatCount, rootEntryCount, totalSectors,
             fatSizeSectors, rootCluster }

variable (sector : BootSector)

-- The part of `open` that computes with the fields.
def geometry : Option Geometry :=
  let rootDirSectors :=
    (U32.wrappingAdd (U32.wrappingMul sector.rootEntryCount 32) sector.bytesPerSector - 1) / sector.bytesPerSector
  let rootDirSector :=
    U32.wrappingAdd sector.reservedSectors (U32.wrappingMul sector.fatCount sector.fatSizeSectors)
  let firstDataSector := U32.wrappingAdd rootDirSector rootDirSectors
  if sector.totalSectors ≤ firstDataSector then none
  else
    let clusterCount := (sector.totalSectors - firstDataSector) / sector.sectorsPerCluster
    if clusterCount < 4085 then none
    else
      let fatKind := if clusterCount < 65525 then FatKind.fat16 else FatKind.fat32
      if fatKind = .fat32 ∧ sector.rootCluster < 2 then none
      else some { firstDataSector, rootDirSector, clusterCount, fatKind }

end BootSector

-- `open` up to the construction of the volume.
def Device.mount (device : Device) : Except SysErrNo (BootSector × Geometry) := do
  let boot ← device.readAt 0 SECTOR_SIZE
  if boot.getD 510 0 ≠ 0x55 ∨ boot.getD 511 0 ≠ 0xaa then .error .EINVAL
  else
    match BootSector.parse boot with
    | none        => .error .EINVAL
    | some sector =>
      match sector.geometry with
      | none          => .error .EINVAL
      | some geometry => .ok (sector, geometry)

-- What is done to the device while a chain is followed.
inductive ReadEvent
  | clusterOffset (cluster : Nat)
  | readCluster (cluster offset len : Nat)
  | readFat (cluster offset len : Nat)

def FatKind.width : FatKind → Nat
  | fat16 => 2
  | fat32 => 4

-- The number in an entry of the FAT.
def FatKind.decode (kind : FatKind) (raw : List UInt8) : Nat :=
  match kind with
  | fat16 => if fromLeBytes raw ≥ 0xfff8 then END_OF_CHAIN else fromLeBytes raw
  | fat32 => fromLeBytes raw % 2 ^ 28

-- The loop of `parse_dir_entries`.
def parseEntries : List (List UInt8) → List DirEntry
  | []          => []
  | raw :: raws =>
    if raw.getD 0 0 = 0x00 then []
    else if raw.getD 0 0 = 0xe5 ∨ raw.getD 11 0 = ATTR_LONG_NAME ∨ raw.getD 11 0 &&& ATTR_VOLUME_ID ≠ 0 then
      parseEntries raws
    else
      match shortName (raw.take 11) with
      | none      => parseEntries raws
      | some name =>
        { name
          isDir := raw.getD 11 0 &&& ATTR_DIRECTORY ≠ 0
          readonly := raw.getD 11 0 &&& ATTR_READ_ONLY ≠ 0
          cluster := fromLeBytes (slice raw 20 2) * 2 ^ 16 + fromLeBytes (slice raw 26 2)
          size := fromLeBytes (slice raw 28 4) } :: parseEntries raws

def parseDirEntries (data : List UInt8) : List DirEntry :=
  parseEntries ((List.range (data.length / 32)).map fun i => slice data (i * 32) 32)

def findEntry (entries : List DirEntry) (component : Text) : Except SysErrNo DirEntry :=
  match entries.find? fun entry => eqIgnoreAsciiCase entry.name component with
  | none       => .error .ENOENT
  | some entry => .ok entry

-- The records of the entries that are listed.
def recordsOf (entries : List DirEntry) : List DirEntryRecord :=
  (entries.filter fun entry => entry.name ≠ [dot] ∧ entry.name ≠ [dot, dot]).map fun entry => ⟨entry.name, entry.isDir⟩

-- `norm.split('/').filter(|part| !part.is_empty())`
def components (norm : Text) : List Text :=
  (norm.splitOn slash).filter (· ≠ [])

namespace VfatVolume

def ofGeometry (device : Device) (sector : BootSector) (geometry : Geometry) : VfatVolume where
  device := device
  bytesPerSector := sector.bytesPerSector
  sectorsPerCluster := sector.sectorsPerCluster
  reservedSectors := sector.reservedSectors
  rootEntryCount := sector.rootEntryCount
  rootCluster := sector.rootCluster
  firstDataSector := geometry.firstDataSector
  rootDirSector := geometry.rootDirSector
  fatKind := geometry.fatKind

variable (volume : VfatVolume)

def clusterBytes : Nat :=
  volume.sectorsPerCluster * volume.bytesPerSector

def clusterOffset (cluster : Nat) : Except SysErrNo Nat :=
  if cluster < 2 then .error .EINVAL
  else
    match U32.checkedAdd volume.firstDataSector (U32.saturatingMul (cluster - 2) volume.sectorsPerCluster) with
    | none        => .error .EINVAL
    | some sector =>
      if sector * volume.bytesPerSector ≤ Usize.max then .ok (sector * volume.bytesPerSector) else .error .EINVAL

def readCluster (cluster : Nat) : Traced ReadEvent SysErrNo (List UInt8) := do
  let offset ← Traced.note (.clusterOffset cluster) (volume.clusterOffset cluster)
  Traced.note (.readCluster cluster offset volume.clusterBytes) (volume.device.readAt offset volume.clusterBytes)

def fatOffset (cluster : Nat) : Nat :=
  volume.reservedSectors * volume.bytesPerSector + cluster * volume.fatKind.width

def nextCluster (cluster : Nat) : Traced ReadEvent SysErrNo Nat := do
  let abs := volume.fatOffset cluster
  let raw ← Traced.note (.readFat cluster abs volume.fatKind.width) (volume.device.readAt abs volume.fatKind.width)
  return volume.fatKind.decode raw

-- The loop of `read_cluster_chain`. So many more clusters may be read before it gives up.
def readChainFrom (left cluster : Nat) : Traced ReadEvent SysErrNo (List UInt8) :=
  if ¬(2 ≤ cluster ∧ cluster < END_OF_CHAIN) then pure []
  else do
    let bytes ← volume.readCluster cluster
    let next ← volume.nextCluster cluster
    match left with
    | 0        => Traced.fail .ELOOP
    | left + 1 =>
      let rest ← readChainFrom left next
      return bytes ++ rest

def readClusterChain (start : Nat) : Traced ReadEvent SysErrNo (List UInt8) :=
  volume.readChainFrom CHAIN_LIMIT start

def readDirEntry (entry : DirEntry) : Except SysErrNo (List DirEntry) :=
  if entry.cluster < 2 then .ok [] else (volume.readClusterChain entry.cluster).result.map parseDirEntries

def readRootDir : Except SysErrNo (List DirEntry) :=
  match volume.fatKind with
  | .fat32 => (volume.readClusterChain volume.rootCluster).result.map parseDirEntries
  | .fat16 =>
    (volume.device.readAt (volume.rootDirSector * volume.bytesPerSector) (volume.rootEntryCount * 32)).map
      parseDirEntries

-- The loop of `lookup`.
def lookupIn (entries : List DirEntry) : List Text → Except SysErrNo DirEntry
  | []                        => .error .ENOENT
  | [component]               => findEntry entries component
  | component :: next :: rest => do
    let entry ← findEntry entries component
    if !entry.isDir then .error .ENOTDIR
    else
      let entries ← volume.readDirEntry entry
      lookupIn entries (next :: rest)

def lookup (path : Text) : Except SysErrNo DirEntry := do
  let entries ← volume.readRootDir
  volume.lookupIn entries (components path.normalizePath)

def readDirForPath (path : Text) : Except SysErrNo (List DirEntry) :=
  let norm := path.normalizePath
  if norm = [slash] then volume.readRootDir
  else do
    let entry ← volume.lookup norm
    if !entry.isDir then .error .ENOTDIR else volume.readDirEntry entry

def metadata (path : Text) : Except SysErrNo Metadata :=
  if path.normalizePath = [slash] then .ok ⟨true, true, 0⟩
  else (volume.lookup path).map fun entry => ⟨entry.isDir, entry.readonly, entry.size⟩

def listDir (path : Text) : Except SysErrNo (List DirEntryRecord) :=
  (volume.readDirForPath path).map recordsOf

def readFile (path : Text) : Except SysErrNo (List UInt8) := do
  let entry ← volume.lookup path
  if entry.isDir then .error .EISDIR
  else if entry.cluster < 2 ∨ entry.size = 0 then .ok []
  else
    let data ← (volume.readClusterChain entry.cluster).result
    .ok (data.take entry.size)

end VfatVolume

end WllOs.Fs.Vfat
