import WllOs.Fs.Path
import WllOs.Library.LinkWalk

namespace WllOs.Fs

structure Metadata where
  ino  : Nat
  mode : BitVec 32
  uid  : BitVec 32
  gid  : BitVec 32
  deriving DecidableEq, Repr

attribute [ext] Metadata

inductive Node (N : Type)
  | regular (metadata : Metadata)
  | directory (metadata : Metadata)
  | symlink (target : PathText N) (metadata : Metadata)
  | other (metadata : Metadata)
  deriving DecidableEq, Repr

def Node.isDirectory {N : Type} : Node N → Bool
  | directory _ => true
  | _           => false

def Node.target? {N : Type} : Node N → Option (PathText N)
  | symlink target _ => some target
  | _                => none

-- What path lookups see of the memory file system, of the ext4 volume and of `WHITEOUTS`. Whatever the ext4
-- volume holds lies in a directory.
structure Namespace (N : Type) where
  removed : HostPath N → Bool
  tmpfs   : HostPath N → Bool
  mem     : HostPath N → Option (Node N)
  disk    : HostPath N → Option (Node N)
  closed  : ∀ path component, disk (path ++ [component]) ≠ none →
    ∃ metadata, disk path = some (.directory metadata)

namespace Namespace

variable {N : Type} (fs : Namespace N)

-- `lookup_symlink_target`, when it finds nothing in its cache.
def lookupSymlinkTarget (path : HostPath N) : Except SysErrNo (Option (PathText N)) :=
  if fs.removed path then .error .ENOENT
  else
    match (fs.mem path).bind Node.target? with
    | some target => .ok (some target)
    | none        =>
      if fs.tmpfs path then .ok none
      else .ok ((fs.disk path).bind Node.target?)

def pathExistsNonDir (path : HostPath N) : Bool :=
  if fs.removed path then false
  else
    match fs.mem path with
    | some node => !node.isDirectory
    | none      => !fs.tmpfs path && (fs.disk path).any (!·.isDirectory)

def missingPathErrno (path : HostPath N) : SysErrNo :=
  if !path.isEmpty && fs.pathExistsNonDir (parentPath path) then .ENOTDIR else .ENOENT

-- `metadata(path, false)`.
def lookup (path : HostPath N) : Except SysErrNo (Node N) :=
  if fs.removed path then .error .ENOENT
  else
    match fs.mem path with
    | some node => .ok node
    | none      =>
      if fs.tmpfs path then .error (fs.missingPathErrno path)
      else
        match fs.disk path with
        | some node => .ok node
        | none      => .error (fs.missingPathErrno path)

-- The links that `resolve_path_symlinks` follows, and what it demands of a path that is not the last one.
def vfs : LinkTree N SysErrNo where
  link path  := (fs.lookupSymlinkTarget path).map (Option.map (symlinkTargetPath path))
  enter path := do
    let node ← fs.lookup path
    if node.isDirectory then return else throw .ENOTDIR
  loop       := .ELOOP

-- The same for `resolve_symlinks` of `ext4_vol.rs`.
def ext4 : LinkTree N SysErrNo where
  link path  :=
    match fs.disk path with
    | none      => .error .ENOENT
    | some node => .ok (node.target?.map (symlinkTargetPath path))
  enter path := if (fs.disk path).any Node.isDirectory then .ok () else .error .ENOTDIR
  loop       := .ELOOP

def maxLinks : Nat := 40

def resolvePathSymlinks (path : HostPath N) (finalSymlink : FinalLink) : Except SysErrNo (HostPath N) :=
  fs.vfs.resolve finalSymlink maxLinks path

def resolveFinalSymlink (path : HostPath N) (nofollow : Bool) : Except SysErrNo (HostPath N) :=
  fs.resolvePathSymlinks path (if nofollow then .reject else .follow)

def resolveFinalComponentSymlink (path : HostPath N) (nofollow : Bool) : Except SysErrNo (HostPath N) := do
  match ← fs.lookupSymlinkTarget path with
  | none        => return path
  | some target =>
    if nofollow then throw .ELOOP
    else fs.resolvePathSymlinks (symlinkTargetPath path target) .follow

-- `resolve_parent_symlinks_for_lookup`, when it finds nothing in its caches.
def resolveParentSymlinksForLookup (path : HostPath N) : Except SysErrNo (HostPath N) :=
  if (parentPath path).isEmpty then .ok path
  else fs.resolvePathSymlinks path .preserve

-- `resolve_symlinks` of `ext4_vol.rs`.
def resolveSymlinks (path : HostPath N) : Except SysErrNo (HostPath N) :=
  fs.ext4.resolve .follow maxLinks path

-- `metadata` of `ext4_vol.rs`.
def ext4Metadata (path : HostPath N) : Except SysErrNo (Node N) :=
  match fs.disk path with
  | some node => .ok node
  | none      => .error .ENOENT

-- The path whose object `metadata(path, true)` describes, and the object. A link in memory is followed by
-- `resolve_path_symlinks`, of which the result is no link, and a link on the ext4 volume by the volume itself.
def metadataFollow (path : HostPath N) : Except SysErrNo (HostPath N × Node N) := do
  let node ← fs.lookup path
  match node.target? with
  | none   => return (path, node)
  | some _ =>
    if (fs.mem path).isSome then
      let resolved ← fs.resolveFinalSymlink path false
      return (resolved, ← fs.lookup resolved)
    else
      let extPath ← fs.resolveSymlinks path
      return (extPath, ← fs.ext4Metadata extPath)

end Namespace

end WllOs.Fs

namespace WllOs.Fs.Namespace

variable {N : Type} (fs : Namespace N) (final : FinalLink)

-- The resolution of a path as POSIX has it, one component after the other: `..` is the parent of the directory
-- that has been reached, and the components of a link's target take the place of the link.
inductive Stop (N : Type)
  | arrived (path : HostPath N)
  | redirected (directory : HostPath N) (parts : List (Part N))

def Stop.elim {N α : Type} (again : HostPath N → List (Part N) → Except SysErrNo α)
    (arrived : HostPath N → Except SysErrNo α) : Stop N → Except SysErrNo α
  | .arrived path               => arrived path
  | .redirected directory parts => again directory parts

-- The resolution from a directory to the first link.
def posixScan : HostPath N → List (Part N) → Except SysErrNo (Stop N)
  | directory, []                  => .ok (.arrived directory)
  | directory, .empty :: parts     => posixScan directory parts
  | directory, .dot :: parts       => posixScan directory parts
  | directory, .dotdot :: parts    => posixScan (parentPath directory) parts
  | directory, .name name :: parts =>
    let here := directory ++ [name]
    if parts.isEmpty ∧ final = .preserve then
      .ok (.arrived here)
    else
      match fs.lookupSymlinkTarget here with
      | .error e          => .error e
      | .ok (some target) =>
        if parts.isEmpty ∧ final = .reject then .error .ELOOP
        else .ok (.redirected (if target.absolute then [] else directory) (target.parts ++ parts))
      | .ok none          =>
        if parts.isEmpty then .ok (.arrived here)
        else
          match fs.vfs.enter here with
          | .error e => .error e
          | .ok ()   => posixScan here parts

-- The directories in which components are looked up on the way to the first link.
def posixLeg : HostPath N → List (Part N) → List (HostPath N)
  | _,         []                  => []
  | directory, .empty :: parts     => posixLeg directory parts
  | directory, .dot :: parts       => directory :: posixLeg directory parts
  | directory, .dotdot :: parts    => directory :: posixLeg (parentPath directory) parts
  | directory, .name name :: parts =>
    let here := directory ++ [name]
    directory ::
      match fs.lookupSymlinkTarget here, fs.vfs.enter here with
      | .ok none, .ok () => posixLeg here parts
      | _,        _      => []

def posixResolve : Nat → HostPath N → List (Part N) → Except SysErrNo (HostPath N)
  | 0,         directory, parts => fs.posixScan final directory parts >>= Stop.elim (fun _ _ => .error .ELOOP) .ok
  | links + 1, directory, parts => fs.posixScan final directory parts >>= Stop.elim (posixResolve links) .ok

-- The directories in which components are looked up on the whole way.
def posixSearched : Nat → HostPath N → List (Part N) → List (HostPath N)
  | 0,         directory, parts => fs.posixLeg directory parts
  | links + 1, directory, parts => fs.posixLeg directory parts ++
    match fs.posixScan final directory parts with
    | .ok (.redirected next rest) => posixSearched links next rest
    | _                           => []

end WllOs.Fs.Namespace

namespace WllOs.Fs

-- The ways from the host path of an argument to the object that a system call reads or changes.
inductive PathCall
  -- `remove_file`, `rename_path`, `link_path`, `create_symlink`, `create_regular_file`, `create_special_node`
  | literal
  -- `remove_dir`, `create_dir_with_mode`, `read_link`, `metadata_for_lookup(path, false)`
  | parents
  -- `metadata_for_lookup(path, true)`
  | stat
  -- `open_path`
  | openPath (nofollow : Bool)
  -- `truncate_path` and the extended attributes
  | truncate
  -- `read_executable_file`
  | execute
  -- `set_mode_path`, `set_owner_path` and `set_times_path`
  | change
  deriving DecidableEq, Repr

namespace Namespace

variable {N : Type} (fs : Namespace N)

-- A path and what is found there, which is nothing where a call is about to create an object.
def found (path : HostPath N) : HostPath N × Except SysErrNo (Node N) :=
  (path, fs.lookup path)

def reach (path : HostPath N) : PathCall → Except SysErrNo (HostPath N × Except SysErrNo (Node N))
  | .literal           => return fs.found path
  | .parents           => return fs.found (← fs.resolveParentSymlinksForLookup path)
  | .stat              => do
    let norm ← fs.resolveParentSymlinksForLookup path
    let (target, node) ← fs.metadataFollow norm
    return (target, .ok node)
  | .openPath nofollow =>
    if fs.removed path then return fs.found path
    else do
      let lookupNorm ← fs.resolveParentSymlinksForLookup path
      return fs.found (← fs.resolveFinalComponentSymlink lookupNorm nofollow)
  | .truncate          => do
    let norm ← fs.resolveParentSymlinksForLookup path
    return fs.found (← fs.resolveFinalSymlink norm false)
  | .execute           => return fs.found (← fs.resolveFinalSymlink path false)
  | .change            => do
    let (target, node) ← fs.metadataFollow path
    return (target, .ok node)

-- The paths on which `metadata(path, true)` goes.
def metadataHops (path : HostPath N) : List (HostPath N) :=
  match (fs.lookup path).toOption.bind Node.target? with
  | none   => []
  | some _ =>
    if (fs.mem path).isSome then fs.vfs.hops .follow maxLinks path
    else fs.ext4.hops .follow maxLinks path

def finalComponentHops (path : HostPath N) (nofollow : Bool) : List (HostPath N) :=
  match fs.vfs.link path with
  | .ok (some target) => if nofollow then [] else fs.vfs.hops .follow maxLinks target
  | _                 => []

-- The paths of a first walk, and those of a second one from where the first one ends.
def parentHops (path : HostPath N) (further : HostPath N → List (HostPath N)) : List (HostPath N) :=
  fs.vfs.hops .preserve maxLinks path ++
    ((fs.resolveParentSymlinksForLookup path).toOption.elim [] further)

-- The paths along which a call goes from link to link: each is a link's target in host coordinates, followed
-- by the components that are left.
def hops (path : HostPath N) : PathCall → List (HostPath N)
  | .literal           => []
  | .parents           => fs.parentHops path fun _ => []
  | .stat              => fs.parentHops path fs.metadataHops
  | .openPath nofollow =>
    if fs.removed path then [] else fs.parentHops path (fs.finalComponentHops · nofollow)
  | .truncate          => fs.parentHops path (fs.vfs.hops .follow maxLinks)
  | .execute           => fs.vfs.hops .follow maxLinks path
  | .change            => fs.metadataHops path

-- The path is a directory, as are the ones above it.
def RootDirectory (root : HostPath N) : Prop :=
  ∀ part, part <+: root → fs.lookupSymlinkTarget part = .ok none ∧ ∃ metadata, fs.lookup part = .ok (.directory metadata)

-- Two file systems that differ only outside a directory.
structure SameBeneath (root : HostPath N) (other : Namespace N) : Prop where
  root₁   : fs.RootDirectory root
  root₂   : other.RootDirectory root
  removed : ∀ path, root <+: path → fs.removed path = other.removed path
  tmpfs   : ∀ path, root <+: path → fs.tmpfs path = other.tmpfs path
  mem     : ∀ path, root <+: path → fs.mem path = other.mem path
  disk    : ∀ path, root <+: path → fs.disk path = other.disk path

-- A call acts beneath the directory, and what it does is the same whatever there is outside.
def Confined (root path : HostPath N) (call : PathCall) : Prop :=
  (∀ target object, fs.reach path call = .ok (target, object) → root <+: target) ∧
  ∀ other, fs.SameBeneath root other → other.reach path call = fs.reach path call

end Namespace

end WllOs.Fs
