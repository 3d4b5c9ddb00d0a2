import WllOs.Library.Chains
import WllOs.Fs.Vfat

namespace WllOs.Fs.Vfat

open Text ( slash dot )

namespace BootSector

variable (sector : BootSector)

-- The layout of a volume in sectors, without a bound on the numbers.
def rootDirSectors : Nat :=
  (sector.rootEntryCount * 32 + sector.bytesPerSector - 1) / sector.bytesPerSector

def fatSectors : Nat :=
  sector.fatCount * sector.fatSizeSectors

def firstDataSector : Nat :=
  sector.reservedSectors + sector.fatSectors + sector.rootDirSectors

def clusterCount : Nat :=
  (sector.totalSectors - sector.firstDataSector) / sector.sectorsPerCluster

end BootSector

-- The numbers that have been computed are those of the layout.
structure Geometry.Exact (geometry : Geometry) (sector : BootSector) : Prop where
  rootDirSector   : geometry.rootDirSector = sector.reservedSectors + sector.fatSectors
  firstDataSector : geometry.firstDataSector = sector.firstDataSector
  below           : sector.firstDataSector < sector.totalSectors
  clusterCount    : geometry.clusterCount = sector.clusterCount

-- The computation that an event stands for does not leave its bounds, and what is read lies where it has to.
def ReadEvent.Inside (sector : BootSector) (kind : FatKind) : ReadEvent → Prop
  | clusterOffset cluster          =>
    2 ≤ cluster ∧ (cluster - 2) * sector.sectorsPerCluster < 2 ^ 32 ∧
      sector.firstDataSector + (cluster - 2) * sector.sectorsPerCluster < 2 ^ 32 ∧
      (sector.firstDataSector + (cluster - 2) * sector.sectorsPerCluster) * sector.bytesPerSector ≤ Usize.max
  | readCluster cluster offset len =>
    offset = (sector.firstDataSector + (cluster - 2) * sector.sectorsPerCluster) * sector.bytesPerSector ∧
      sector.firstDataSector * sector.bytesPerSector ≤ offset ∧
      offset + len ≤ sector.totalSectors * sector.bytesPerSector
  | readFat cluster offset len     =>
    offset = sector.reservedSectors * sector.bytesPerSector + cluster * kind.width ∧ offset ≤ Usize.max ∧
      offset + len ≤ (sector.reservedSectors + sector.fatSizeSectors) * sector.bytesPerSector

-- A device that `open` accepts.
structure Image where
  device   : Device
  sector   : BootSector
  geometry : Geometry
  accepted : device.mount = .ok (sector, geometry)

namespace Image

variable (image : Image)

def volume : VfatVolume :=
  .ofGeometry image.device image.sector image.geometry

-- The bytes of a cluster, when the device has them.
def cluster? (cluster : Nat) : Option (List UInt8) :=
  (image.volume.clusterOffset cluster).toOption.bind fun offset =>
    (image.device.readAt offset (image.sector.sectorsPerCluster * image.sector.bytesPerSector)).toOption

-- The number that the first FAT has for a cluster.
def fatEntry? (cluster : Nat) : Option Nat :=
  (image.device.readAt (image.sector.reservedSectors * image.sector.bytesPerSector +
    cluster * image.geometry.fatKind.width) image.geometry.fatKind.width).toOption.map image.geometry.fatKind.decode

-- Where a number leads to that is taken for the number of a cluster, whether or not the volume has that cluster.
def follow (cluster : Nat) : Option Nat :=
  if 2 ≤ cluster ∧ cluster < END_OF_CHAIN ∧ (image.cluster? cluster).isSome then image.fatEntry? cluster else none

-- The number of a cluster of the volume, with an entry in the first FAT. The mark of bad clusters is none.
def IsCluster (cluster : Nat) : Prop :=
  2 ≤ cluster ∧ cluster < image.geometry.clusterCount + 2 ∧ cluster < END_OF_CHAIN - 1 ∧
    (cluster + 1) * image.geometry.fatKind.width ≤ image.sector.fatSizeSectors * image.sector.bytesPerSector

instance (cluster : Nat) : Decidable (image.IsCluster cluster) :=
  inferInstanceAs (Decidable (_ ∧ _))

-- The chains of the file system.
def next (cluster : Nat) : Option Nat :=
  if image.IsCluster cluster then image.follow cluster else none

def clusterData (cluster : Nat) : List UInt8 :=
  (image.cluster? cluster).getD []

def content (clusters : List Nat) : List UInt8 :=
  clusters.flatMap image.clusterData

-- The chain from a cluster goes through these clusters and ends with a mark.
def HasChain (start : Nat) (clusters : List Nat) : Prop :=
  ∃ last, Chain image.next start clusters last ∧ END_OF_CHAIN ≤ last

-- The chain comes to a number that is not the one of a cluster: a free mark, a bad mark or a number beyond the volume.
def Broken (start : Nat) : Prop :=
  ∃ clusters last, Chain image.next start clusters last ∧ image.next last = none ∧ last < END_OF_CHAIN

-- The chain comes back to a cluster.
def Cyclic (start : Nat) : Prop :=
  ∃ clusters cluster cycle,
    Chain image.next start clusters cluster ∧ Chain image.next cluster cycle cluster ∧ cycle ≠ []

-- Going through the numbers as if they were those of clusters does not come to an end, or takes too long.
def Strays (start : Nat) : Prop :=
  ∀ clusters last, Chain image.follow start clusters last → ¬(2 ≤ last ∧ last < END_OF_CHAIN) →
    CHAIN_LIMIT < clusters.length

-- The numbers that a walk over a chain gets to are those of clusters, as far as it goes.
def WalkInside (start : Nat) : Prop :=
  ∀ clusters cluster, Chain image.follow start clusters cluster → clusters.length ≤ CHAIN_LIMIT → 2 ≤ cluster →
    cluster < END_OF_CHAIN → cluster < image.geometry.clusterCount + 2 ∧ ((image.cluster? cluster).isSome →
      (cluster + 1) * image.geometry.fatKind.width ≤ image.sector.fatSizeSectors * image.sector.bytesPerSector)

-- A file without clusters is empty. The chain of another one has all its bytes.
def Sound (entry : DirEntry) (clusters : List Nat) : Prop :=
  entry.cluster = 0 ∧ entry.size = 0 ∧ clusters = [] ∨
    image.HasChain entry.cluster clusters ∧ entry.size ≤ clusters.length * image.volume.clusterBytes

inductive Damaged (entry : DirEntry) : Prop
  | short (clusters : List Nat) (chain : image.HasChain entry.cluster clusters)
      (short : clusters.length * image.volume.clusterBytes < entry.size)
  | cyclic (cyclic : image.Cyclic entry.cluster)
  | broken (broken : image.Broken entry.cluster) (notEmpty : ¬(entry.cluster = 0 ∧ entry.size = 0))

-- What reading a file comes to that has an entry.
structure FileFaithful (entry : DirEntry) (result : Except SysErrNo (List UInt8)) : Prop where
  content : ∀ clusters, image.Sound entry clusters →
    result = .ok ((image.content clusters).take entry.size) ∧
      ((image.content clusters).take entry.size).length = entry.size
  damaged : image.Damaged entry → ∃ err, result = .error err

-- What listing a directory comes to that has a chain.
structure DirFaithful (start : Nat) (result : Except SysErrNo (List DirEntryRecord)) : Prop where
  content : ∀ clusters, image.HasChain start clusters →
    result = .ok (recordsOf (parseDirEntries (image.content clusters)))
  damaged : image.Cyclic start ∨ image.Broken start → ∃ err, result = .error err

-- The chain of the directory at a path. The root directory of FAT16 has none.
inductive DirAt (path : Text) : Nat → Prop
  | root (root : path.normalizePath = [slash]) (fat32 : image.geometry.fatKind = .fat32) :
      DirAt path image.sector.rootCluster
  | entry (entry : DirEntry) (notRoot : path.normalizePath ≠ [slash])
      (found : image.volume.lookup path = .ok entry) (isDir : entry.isDir) : DirAt path entry.cluster

end Image

-- The names of a directory are different, and can stand in a path.
structure ProperNames (entries : List DirEntry) : Prop where
  distinct : entries.Pairwise fun left right => ¬eqIgnoreAsciiCase left.name right.name
  noSlash  : ∀ entry ∈ entries, slash ∉ entry.name

-- Listing a directory agrees with looking names up in it.
structure VfatVolume.Agrees (volume : VfatVolume) (path : Text) : Prop where
  listed : ∀ entries, volume.readDirForPath path = .ok entries → ProperNames entries →
    ∀ records, volume.listDir path = .ok records → ∀ record ∈ records, ∃ entry,
      volume.lookup (path ++ [slash] ++ record.name) = .ok entry ∧ entry.name = record.name ∧
        entry.isDir = record.isDir ∧ volume.metadata (path ++ [slash] ++ record.name) =
          .ok ⟨record.isDir, entry.readonly, entry.size⟩
  found : ∀ name entry, name ≠ [] → slash ∉ name → name ≠ [dot] → name ≠ [dot, dot] →
    volume.lookup (path ++ [slash] ++ name) = .ok entry → ∃ records, volume.listDir path = .ok records ∧
      ∃ record ∈ records, eqIgnoreAsciiCase record.name name ∧ record.isDir = entry.isDir

namespace Image

variable (image : Image)

-- The file and the directory at a path, and the names in the directory.
structure Faithful (path : Text) : Prop where
  file  : ∀ entry, image.volume.lookup path = .ok entry → entry.isDir = false →
    image.FileFaithful entry (image.volume.readFile path)
  dir   : ∀ start, image.DirAt path start → image.DirFaithful start (image.volume.listDir path)
  names : path.isAbsolute → image.volume.Agrees path

-- A chain with its end is short enough, and one without goes astray.
structure FileWhen (entry : DirEntry) : Prop where
  sound   : ∀ clusters, image.Sound entry clusters → entry.size = 0 ∨ clusters.length ≤ CHAIN_LIMIT
  damaged : image.Damaged entry → 2 ≤ entry.cluster ∧ 0 < entry.size ∧ image.Strays entry.cluster

structure DirWhen (start : Nat) : Prop where
  sound   : ∀ clusters, image.HasChain start clusters → clusters.length ≤ CHAIN_LIMIT
  damaged : image.Cyclic start ∨ image.Broken start → 2 ≤ start ∧ image.Strays start

structure FaithfulWhen (path : Text) : Prop where
  file : ∀ entry, image.volume.lookup path = .ok entry → entry.isDir = false → image.FileWhen entry
  dir  : ∀ start, image.DirAt path start → image.DirWhen start

end Image

-- The safety of the volume on a device, and of a walk from a number that a directory gives.
def Device.Safe (device : Device) (start : Nat) : Prop :=
  ∀ image : Image, image.device = device → image.geometry.Exact image.sector ∧
    (∀ event ∈ (image.volume.readClusterChain start).trace, event.Inside image.sector image.geometry.fatKind) ∧
    (image.volume.readClusterChain start).trace.length ≤ 3 * (CHAIN_LIMIT + 1)

def Device.SafeWhen (device : Device) (start : Nat) : Prop :=
  ∀ image : Image, image.device = device → image.sector.firstDataSector < 2 ^ 32 ∧ image.WalkInside start

end WllOs.Fs.Vfat
