import WllOs.Fs.Lookup
import WllOs.Library.Lists

namespace WllOs.Fs

open Lists

-- The volatile directories, which are held in memory alone, in each of the three root directories.
def isMemfsVolatileDir (path : HostPath String) : Bool :=
  let inRoot :=
    match path with
    | "musl" :: tail  => tail
    | "glibc" :: tail => tail
    | _               => path
  ["tmp"].isPrefixOf inRoot || ["var", "tmp"].isPrefixOf inRoot || ["dev", "shm"].isPrefixOf inRoot

inductive MountBackend (V : Type)
  | root
  | ext4Root
  | tmpfs
  | vfat (volume : V)

namespace MountBackend

variable {V : Type}

def isTmpfs : MountBackend V → Bool
  | tmpfs => true
  | _     => false

def isExt4 : MountBackend V → Bool
  | ext4Root => true
  | _        => false

def volume? : MountBackend V → Option V
  | vfat volume => some volume
  | _           => none

end MountBackend

structure MountEntry (V : Type) where
  logicalTarget : HostPath String
  hostTarget    : HostPath String
  backend       : MountBackend V
  readonly      : Bool

-- `path_is_under`.
def pathIsUnder (path parent : HostPath String) : Bool :=
  path = parent || (!parent.isEmpty && parent.isPrefixOf path)

namespace MountEntry

variable {V : Type} (entry : MountEntry V)

def covers (path : HostPath String) : Bool :=
  pathIsUnder path entry.hostTarget

def depth : Nat :=
  entry.hostTarget.length

-- A path below the target of a mount, as the mount's backend has it.
def backendPath (path : HostPath String) : HostPath String :=
  path.drop entry.depth

end MountEntry

-- What a routine acts on for a path: the memory file system above the ext4 volume, one of these two alone, or a
-- vfat volume.
inductive Route (V : Type)
  | overlay (mem disk : HostPath String)
  | memory (path : HostPath String)
  | ext4 (path : HostPath String)
  | vfat (volume : V) (path : HostPath String)

-- Where an object is stored.
inductive Place (V : Type)
  | memory (path : HostPath String)
  | ext4 (path : HostPath String)
  | vfat (volume : V) (path : HostPath String)

def Route.Holds {V : Type} : Route V → Place V → Prop
  | overlay mem disk, place => place = .memory mem ∨ place = .ext4 disk
  | memory path,      place => place = .memory path
  | ext4 path,        place => place = .ext4 path
  | vfat volume path, place => place = .vfat volume path

-- The orders in which routines look for the backend of a path.
inductive Routing
  -- `metadata`, `file_exists`, `read_file`, `read_executable_file`, `open_path`, `list_dir`
  | translated
  -- `lookup_symlink_target`
  | links
  -- `remove_file`, `remove_dir`, `rename_path`, `rename_exchange_path`, `link_path`, `create_symlink`,
  -- `create_dir_with_mode`, `create_regular_file`, `create_special_node`, `read_link`, `truncate_path`,
  -- `set_mode_path`, `set_owner_path`, `set_times_path`
  | literal
  -- `set_xattr_path` and the other extended attributes
  | xattr
  deriving DecidableEq, Repr

-- The mounts, `WHITEOUTS`, the nodes of the memory file system and of the ext4 volume, and the attributes that a
-- vfat volume has for a path.
structure Vfs (V : Type) where
  mounts           : List (MountEntry V)
  removed          : HostPath String → Bool
  mem              : HostPath String → Option (Node String)
  disk             : HostPath String → Option (Node String)
  volume           : V → HostPath String → Except SysErrNo (Node String)
  loopDevice       : HostPath String → Bool
  procfsLinkSource : HostPath String → Bool

namespace Vfs

variable {V : Type} (vfs : Vfs V)

def mountedExt4 (path : HostPath String) : Option (MountEntry V) :=
  maxByKey MountEntry.depth <| vfs.mounts.filter fun entry =>
    entry.backend.isExt4 && !entry.hostTarget.isEmpty && entry.covers path

def mountedExt4BackendPath (path : HostPath String) : Option (HostPath String) :=
  (vfs.mountedExt4 path).map (·.backendPath path)

def ext4LookupPath (path : HostPath String) : HostPath String :=
  (vfs.mountedExt4BackendPath path).getD path

def isTmpfsPath (path : HostPath String) : Bool :=
  isMemfsVolatileDir path || vfs.mounts.any fun entry => entry.backend.isTmpfs && entry.covers path

def mountedVfat (path : HostPath String) : Option (MountEntry V) :=
  maxByKey MountEntry.depth <| vfs.mounts.filter fun entry => entry.backend.volume?.isSome && entry.covers path

def mountedVfatBackend (path : HostPath String) : Option (V × HostPath String) :=
  (vfs.mountedVfat path).bind fun entry => entry.backend.volume?.map (·, entry.backendPath path)

def isReadonlyMountPath (path : HostPath String) : Bool :=
  (maxByKey MountEntry.depth <| vfs.mounts.filter (·.covers path)).any MountEntry.readonly

def ensureMountWritable (path : HostPath String) : Except SysErrNo Unit :=
  if vfs.isReadonlyMountPath path then .error .EROFS else .ok ()

def isMountpoint (path : HostPath String) : Bool :=
  vfs.mounts.any fun entry => entry.hostTarget = path && !entry.hostTarget.isEmpty

def route (path : HostPath String) : Routing → Route V
  | .translated =>
    match vfs.mountedVfatBackend path with
    | some (volume, path) => .vfat volume path
    | none                =>
      if vfs.isTmpfsPath path then .memory path
      else
        match vfs.mountedExt4BackendPath path with
        | some path => .ext4 path
        | none      => .overlay path path
  | .links =>
    match vfs.mountedExt4BackendPath path with
    | some path => .ext4 path
    | none      => if vfs.isTmpfsPath path then .memory path else .overlay path path
  | .literal =>
    match vfs.mountedVfatBackend path with
    | some (volume, path) => .vfat volume path
    | none                => if vfs.isTmpfsPath path then .memory path else .overlay path path
  | .xattr =>
    match vfs.mountedVfatBackend path with
    | some (volume, path) => .vfat volume path
    | none                =>
      if vfs.isTmpfsPath path then .memory path else .overlay path (vfs.ext4LookupPath path)

section Lookup

-- `metadata(path, false)` of an object that exists.
def nodeAt (path : HostPath String) : Except SysErrNo (Option (Node String)) :=
  match vfs.mountedVfatBackend path with
  | some (volume, path) => (vfs.volume volume path).map some
  | none                =>
    let snapshot :=
      if vfs.isTmpfsPath path || (vfs.mountedExt4BackendPath path).isNone then vfs.mem path else none
    match snapshot with
    | some node => .ok (some node)
    | none      => if vfs.isTmpfsPath path then .ok none else .ok (vfs.disk (vfs.ext4LookupPath path))

def pathExistsNonDir (path : HostPath String) : Bool :=
  if vfs.removed path then false
  else
    match vfs.mountedVfatBackend path with
    | some (volume, path) => (vfs.volume volume path).toOption.any (!·.isDirectory)
    | none                =>
      match if (vfs.mountedExt4BackendPath path).isSome then none else vfs.mem path with
      | some node => !node.isDirectory
      | none      => !vfs.isTmpfsPath path && (vfs.disk (vfs.ext4LookupPath path)).any (!·.isDirectory)

def missingPathErrno (path : HostPath String) : SysErrNo :=
  if !path.isEmpty && vfs.pathExistsNonDir (parentPath path) then .ENOTDIR else .ENOENT

-- `metadata(path, false)`.
def lookup (path : HostPath String) : Except SysErrNo (Node String) :=
  if vfs.removed path then .error .ENOENT
  else do
    match ← vfs.nodeAt path with
    | some node => return node
    | none      => throw (vfs.missingPathErrno path)

def fileExists (path : HostPath String) : Bool :=
  !vfs.removed path &&
    match vfs.mountedVfatBackend path with
    | some (volume, path) => (vfs.volume volume path).toOption.any (!·.isDirectory)
    | none                =>
      (vfs.isTmpfsPath path || (vfs.mountedExt4BackendPath path).isNone) && (vfs.mem path).any (!·.isDirectory) ||
        !vfs.isTmpfsPath path && (vfs.disk (vfs.ext4LookupPath path)).any (!·.isDirectory)

def dirExists (path : HostPath String) : Bool :=
  !vfs.removed path &&
    match vfs.mountedVfatBackend path with
    | some (volume, path) => (vfs.volume volume path).toOption.any Node.isDirectory
    | none                =>
      if vfs.isTmpfsPath path then (vfs.mem path).any Node.isDirectory
      else (vfs.mountedExt4BackendPath path).isSome || (vfs.mem path).any Node.isDirectory ||
        (vfs.disk (vfs.ext4LookupPath path)).any Node.isDirectory

def lookupSymlinkTarget (path : HostPath String) : Except SysErrNo (Option (PathText String)) :=
  if vfs.removed path then .error .ENOENT
  else
    match vfs.route path .links with
    | .ext4 path        => .ok ((vfs.disk path).bind Node.target?)
    | .memory path      => .ok ((vfs.mem path).bind Node.target?)
    | .overlay mem disk =>
      match (vfs.mem mem).bind Node.target? with
      | some target => .ok (some target)
      | none        => .ok ((vfs.disk disk).bind Node.target?)
    | .vfat ..          => .ok none

def links : LinkTree String SysErrNo where
  link path  := (vfs.lookupSymlinkTarget path).map (Option.map (symlinkTargetPath path))
  enter path := do
    let node ← vfs.lookup path
    if node.isDirectory then return else throw .ENOTDIR
  loop       := .ELOOP

-- The links of `resolve_symlinks` of `ext4_vol.rs`.
def ext4Links : LinkTree String SysErrNo where
  link path  :=
    match vfs.disk path with
    | none      => .error .ENOENT
    | some node => .ok (node.target?.map (symlinkTargetPath path))
  enter path := if (vfs.disk path).any Node.isDirectory then .ok () else .error .ENOTDIR
  loop       := .ELOOP

def resolveFinalSymlink (path : HostPath String) : Except SysErrNo (HostPath String) :=
  vfs.links.resolve .follow Namespace.maxLinks path

def resolveFinalComponentSymlink (path : HostPath String) (nofollow : Bool) : Except SysErrNo (HostPath String) := do
  match ← vfs.lookupSymlinkTarget path with
  | none        => return path
  | some target => if nofollow then throw .ELOOP else vfs.resolveFinalSymlink (symlinkTargetPath path target)

def resolveParentSymlinksForLookup (path : HostPath String) : Except SysErrNo (HostPath String) :=
  if (parentPath path).isEmpty then .ok path
  else vfs.links.resolve .preserve Namespace.maxLinks path

def resolveExt4Symlinks (path : HostPath String) : Except SysErrNo (HostPath String) :=
  vfs.ext4Links.resolve .follow Namespace.maxLinks path

-- `metadata(path, true)`. Links below an ext4 mount are followed by the volume.
def metadataFollow (path : HostPath String) : Except SysErrNo (Node String) := do
  let node ← vfs.lookup path
  match node.target? with
  | none   => return node
  | some _ =>
    if vfs.isTmpfsPath path || ((vfs.mountedExt4BackendPath path).isNone && (vfs.mem path).isSome) then
      vfs.lookup (← vfs.resolveFinalSymlink path)
    else
      match vfs.disk (← vfs.resolveExt4Symlinks (vfs.ext4LookupPath path)) with
      | some node => return node
      | none      => throw .ENOENT

end Lookup

-- The mount with the longest target among the path and its ancestors.
def innermost (path : HostPath String) : Option (MountEntry V) :=
  maxByKey MountEntry.depth <| vfs.mounts.filter (·.hostTarget.isPrefixOf path)

def innermostRoute (path : HostPath String) : Route V :=
  match vfs.innermost path with
  | none       => .overlay path path
  | some entry =>
    match entry.backend with
    | .root        => if isMemfsVolatileDir path then .memory path else .overlay path path
    | .tmpfs       => .memory path
    | .ext4Root    => .ext4 (entry.backendPath path)
    | .vfat volume => .vfat volume (entry.backendPath path)

-- The object that the stores of a route hold.
def nodeIn : Route V → Except SysErrNo (Option (Node String))
  | .vfat volume path => (vfs.volume volume path).map some
  | .memory path      => .ok (vfs.mem path)
  | .ext4 path        => .ok (vfs.disk path)
  | .overlay mem disk => .ok ((vfs.mem mem).or (vfs.disk disk))

def ReadOnly (path : HostPath String) : Prop :=
  ∃ entry, vfs.innermost path = some entry ∧ entry.readonly

-- When the order in which a routine looks for a backend leads to the innermost mount.
def Straight (path : HostPath String) (routing : Routing) : Prop :=
  match (vfs.innermost path).map MountEntry.backend with
  | some (.vfat _) => routing ≠ .links
  | some .tmpfs    => if routing = .links then vfs.mountedExt4 path = none else vfs.mountedVfat path = none
  | some .ext4Root =>
    match routing with
    | .translated => vfs.mountedVfat path = none ∧ ¬vfs.isTmpfsPath path
    | .links      => True
    | _           => False
  | _              => True

end Vfs

inductive FsType
  | tmpfs
  | vfat
  | ext4
  | other

-- What the block devices and `metadata` say about the source of a mount: the volume of a partition with a vfat file
-- system, whether the device exists and holds the root file system, and whether the path is that device's node.
structure MountSource (V : Type) where
  range      : Option (Except SysErrNo V)
  available  : Bool
  rootSource : Bool
  node       : Except SysErrNo Bool

structure MountRequest (V : Type) where
  source        : MountSource V
  logicalTarget : HostPath String
  hostTarget    : HostPath String
  fstype        : FsType
  flags         : BitVec 64

namespace Mount

def MS_RDONLY : BitVec 64 := 1

def MS_REMOUNT : BitVec 64 := 32

-- `MNT_FORCE`, `MNT_DETACH`, `MNT_EXPIRE` and `UMOUNT_NOFOLLOW`.
def umountFlags : BitVec 64 := 15

end Mount

open Mount

namespace MountSource

variable {V : Type} (source : MountSource V)

def resolveMountBackend : FsType → Except SysErrNo (MountBackend V)
  | .tmpfs => .ok .tmpfs
  | .vfat  =>
    match source.range with
    | some volume => volume.map .vfat
    | none        => if source.available then .ok .tmpfs else .error .ENODEV
  | .ext4  => if source.available then .ok .ext4Root else .error .ENODEV
  | .other => .error .ENODEV

def validateMountSource : Except SysErrNo Unit := do
  if !(← source.node) then throw .ENOTBLK
  if !source.available then throw .ENODEV
  if source.rootSource then throw .EBUSY

end MountSource

namespace Vfs

variable {V : Type} (vfs : Vfs V)

-- The directories that `ensure_parent_dirs` adds: it stops at the first component that is equal to the last one.
def ensuredParents (path : HostPath String) : HostPath String :=
  path.takeWhile (some · ≠ path.getLast?)

-- `add_dir_with_mode` of the memory file system, with the attributes that new nodes get.
def addDirWithMode (fresh : HostPath String → Metadata) (path : HostPath String) (mode : BitVec 32)
    (mem : HostPath String → Option (Node String)) (p : HostPath String) : Option (Node String) :=
  if p = path then
    match mem path with
    | some (.directory metadata) => some (.directory { metadata with mode := mode &&& 0o7777 })
    | _                          => some (.directory { fresh path with mode := mode &&& 0o7777 })
  else if p.isPrefixOf (ensuredParents path) && !p.isEmpty then
    match mem p with
    | some (.directory metadata) => some (.directory metadata)
    | _                          => some (.directory (fresh p))
  else mem p

-- What `mount_fs` checks about the target and, unless the mount is held in memory, about the source.
def checkMount (request : MountRequest V) (backend : MountBackend V) : Except SysErrNo Unit := do
  if !backend.isTmpfs then
    if (vfs.disk []).isNone then throw .ENODEV
    request.source.validateMountSource
  let target ← vfs.metadataFollow request.hostTarget
  if !target.isDirectory then throw .ENOTDIR

def isMounted (path : HostPath String) : Bool :=
  vfs.mounts.any (·.hostTarget = path)

def mountFs (fresh : HostPath String → Metadata) (request : MountRequest V) : Except SysErrNo Unit × Vfs V :=
  let readonly := request.flags &&& MS_RDONLY ≠ 0
  if request.flags &&& ~~~(MS_RDONLY ||| MS_REMOUNT) ≠ 0 then (.error .EINVAL, vfs)
  else if request.flags &&& MS_REMOUNT ≠ 0 then
    match vfs.mounts.findIdx? (·.hostTarget = request.hostTarget) with
    | none       => (.error .EINVAL, vfs)
    | some index => (.ok (), { vfs with mounts := vfs.mounts.modify index ({ · with readonly }) })
  else
    match request.source.resolveMountBackend request.fstype with
    | .error e    => (.error e, vfs)
    | .ok backend =>
      match vfs.checkMount request backend with
      | .error e => (.error e, vfs)
      | .ok ()   =>
        let added :=
          if backend.isTmpfs then { vfs with mem := addDirWithMode fresh request.hostTarget 0o1777 vfs.mem }
          else vfs
        if vfs.isMounted request.hostTarget then (.error .EBUSY, added)
        else
          let entry := ⟨request.logicalTarget, request.hostTarget, backend, readonly⟩
          (.ok (), { added with mounts := vfs.mounts ++ [entry] })

def umountFs (logicalTarget hostTarget : HostPath String) (flags : BitVec 64) : Except SysErrNo Unit × Vfs V :=
  if flags &&& ~~~umountFlags ≠ 0 then (.error .EINVAL, vfs)
  else
    match vfs.mounts.reverse.findIdx? fun entry =>
      entry.logicalTarget = logicalTarget && entry.hostTarget = hostTarget with
    | none       => (.error .EINVAL, vfs)
    | some index =>
      if logicalTarget.isEmpty then (.error .EBUSY, vfs)
      else (.ok (), { vfs with mounts := (vfs.mounts.reverse.eraseIdx index).reverse })

-- What `init_mount_table` leaves.
def Booted : Prop :=
  vfs.mounts = [⟨[], [], .root, false⟩]

-- The states that mounts, remounts and umounts lead to. All else that happens leaves the table as it is.
inductive Reachable : Vfs V → Prop
  | boot {vfs : Vfs V} (h : vfs.Booted) : Reachable vfs
  | mount {vfs : Vfs V} (fresh : HostPath String → Metadata) (request : MountRequest V) (h : Reachable vfs) :
    Reachable (vfs.mountFs fresh request).2
  | umount {vfs : Vfs V} (logicalTarget hostTarget : HostPath String) (flags : BitVec 64) (h : Reachable vfs) :
    Reachable (vfs.umountFs logicalTarget hostTarget flags).2
  | other {vfs vfs' : Vfs V} (h : Reachable vfs) (hm : vfs'.mounts = vfs.mounts) : Reachable vfs'

end Vfs

end WllOs.Fs
