import WllOs.Fs.Mounts

namespace WllOs.Fs

-- The checks of permissions, of owners and of file flags, and the check that a directory is empty.
structure Grants where
  search : HostPath String → Except SysErrNo Unit
  create : HostPath String → Except SysErrNo Unit
  delete : HostPath String → Node String → Except SysErrNo Unit
  modify : Node String → Except SysErrNo Unit
  empty  : HostPath String → Except SysErrNo Unit

-- A change of the object that a path names, at the place where the change is made.
structure Change (V : Type) where
  path  : HostPath String
  place : Place V

-- The whiteout that a call has cleared, the changes that it has asked of the stores, and its result.
structure CallOutcome (V : Type) where
  cleared : Option (HostPath String)
  changes : List (Change V)
  result  : Except SysErrNo Unit

def CallOutcome.of {V : Type} : Except SysErrNo (List (Change V)) → CallOutcome V
  | .ok changes => ⟨none, changes, .ok ()⟩
  | .error e    => ⟨none, [], .error e⟩

structure OpenFlags where
  write     : Bool
  create    : Bool
  truncate  : Bool
  exclusive : Bool
  directory : Bool
  nofollow  : Bool
  pathOnly  : Bool
  tmpfile   : Bool

-- The calls that change something.
inductive VfsCall
  | openPath (path : HostPath String) (flags : OpenFlags)
  | removeFile (path : HostPath String)
  | removeDir (path : HostPath String)
  | renamePath (old new : HostPath String) (noReplace : Bool)
  | renameExchange (old new : HostPath String)
  | linkPath (old new : HostPath String) (followOld : Bool)
  | createSymlink (path : HostPath String)
  | createDir (path : HostPath String)
  | createRegular (path : HostPath String)
  | createSpecial (path : HostPath String)
  | truncatePath (path : HostPath String)
  | setAttributes (path : HostPath String) (follow : Bool)
  | setXattr (path : HostPath String) (follow : Bool)

namespace Vfs

variable {V : Type} (vfs : Vfs V) (grants : Grants)

def memExists (path : HostPath String) : Bool :=
  (vfs.mem path).isSome

def memIsDir (path : HostPath String) : Bool :=
  (vfs.mem path).any Node.isDirectory

def ext4DirExists (path : HostPath String) : Bool :=
  (vfs.disk path).any Node.isDirectory

-- A vfat volume refuses all changes, with errors that depend on the kind of the object.
def refuseVfat (path : HostPath String) (directory other : SysErrNo) : Except SysErrNo Unit :=
  match vfs.mountedVfatBackend path with
  | none                => .ok ()
  | some (volume, path) =>
    match vfs.volume volume path with
    | .error e => .error e
    | .ok node => .error (if node.isDirectory then directory else other)

-- The object of a call that passes its path to the ext4 volume as it is.
def literalPlace (path : HostPath String) : Except SysErrNo (Place V) :=
  if vfs.memExists path then .ok (.memory path)
  else if vfs.isTmpfsPath path then .error (vfs.missingPathErrno path)
  else if (vfs.disk path).isSome then .ok (.ext4 path)
  else .error (vfs.missingPathErrno path)

def removeFile (path : HostPath String) : Except SysErrNo (List (Change V)) := do
  if vfs.removed path then throw .ENOENT
  if path.isEmpty then throw .EISDIR
  vfs.refuseVfat path .EISDIR .EROFS
  vfs.ensureMountWritable path
  let target ← vfs.lookup path
  if target.isDirectory then throw .EISDIR
  grants.delete path target
  if vfs.memIsDir path then throw .EISDIR
  match ← vfs.literalPlace path with
  | .ext4 path => if vfs.ext4DirExists path then throw .EISDIR else return [⟨path, .ext4 path⟩]
  | place      => return [⟨path, place⟩]

def removeDir (path : HostPath String) : Except SysErrNo (List (Change V)) := do
  let norm ← vfs.resolveParentSymlinksForLookup path
  if vfs.removed norm then throw .ENOENT
  if norm.isEmpty then throw .EBUSY
  if vfs.isMountpoint norm then throw .EBUSY
  vfs.refuseVfat norm .EROFS .ENOTDIR
  vfs.ensureMountWritable norm
  let target ← vfs.lookup norm
  if !target.isDirectory then throw .ENOTDIR
  grants.delete norm target
  if (vfs.mem norm).any (!·.isDirectory) then throw .ENOTDIR
  match ← vfs.literalPlace norm with
  | .ext4 path =>
    if !vfs.ext4DirExists path then throw .ENOTDIR
    grants.empty path
    return [⟨path, .ext4 path⟩]
  | place      => return [⟨norm, place⟩]

-- The checks of the target of a rename in memory and on the ext4 volume.
def checkMemTarget (new : HostPath String) : Except SysErrNo Unit :=
  if vfs.memExists new then do grants.delete new (← vfs.lookup new)
  else grants.create (parentPath new)

def checkExt4Target (new : HostPath String) : Except SysErrNo Unit :=
  match vfs.lookup new with
  | .ok node       => grants.delete new node
  | .error .ENOENT => grants.create (parentPath new)
  | .error e       => .error e

def renamePath (old new : HostPath String) (noReplace : Bool) : Except SysErrNo (List (Change V)) := do
  if vfs.removed old then throw .ENOENT
  vfs.refuseVfat old .EROFS .EROFS
  vfs.refuseVfat (parentPath new) .EROFS .ENOTDIR
  if noReplace && (vfs.fileExists new || vfs.dirExists new) then throw .EEXIST
  vfs.ensureMountWritable old
  vfs.ensureMountWritable new
  if vfs.isTmpfsPath old ≠ vfs.isTmpfsPath new then throw .EXDEV
  if vfs.memExists old then
    if !noReplace && !vfs.isTmpfsPath new && (vfs.disk new).isSome then throw .EEXIST
    if !vfs.memIsDir (parentPath new) then
      throw (if !vfs.isTmpfsPath new && vfs.ext4DirExists (parentPath new) then .EXDEV
        else vfs.missingPathErrno new)
    grants.delete old (← vfs.lookup old)
    vfs.checkMemTarget grants new
    return [⟨old, .memory old⟩, ⟨new, .memory new⟩]
  if vfs.isTmpfsPath old then throw (vfs.missingPathErrno old)
  if (vfs.disk old).isSome then
    if vfs.memExists new then throw (if noReplace then .EEXIST else .EXDEV)
    if vfs.pathExistsNonDir (parentPath new) then throw .ENOTDIR
    if vfs.memIsDir (parentPath new) && !vfs.ext4DirExists (parentPath new) then throw .EXDEV
    grants.delete old (← vfs.lookup old)
    vfs.checkExt4Target grants new
    return [⟨old, .ext4 old⟩, ⟨new, .ext4 new⟩]
  throw (vfs.missingPathErrno old)

def renameExchange (old new : HostPath String) : Except SysErrNo (List (Change V)) := do
  if old = new then return []
  if vfs.removed old || vfs.removed new then throw .ENOENT
  vfs.refuseVfat old .EROFS .EROFS
  vfs.refuseVfat new .EROFS .EROFS
  vfs.ensureMountWritable old
  vfs.ensureMountWritable new
  let oldNode ← vfs.lookup old
  let newNode ← vfs.lookup new
  grants.delete old oldNode
  grants.delete new newNode
  if vfs.isTmpfsPath old ≠ vfs.isTmpfsPath new then throw .EXDEV
  match vfs.memExists old, vfs.memExists new with
  | true,  true  => return [⟨old, .memory old⟩, ⟨new, .memory new⟩]
  | false, false =>
    if vfs.isTmpfsPath old then throw .ENOENT
    if (vfs.disk old).isNone || (vfs.disk new).isNone then throw .ENOENT
    return [⟨old, .ext4 old⟩, ⟨new, .ext4 new⟩]
  | _,     _     => throw .EXDEV

def linkPath (old new : HostPath String) (followOld : Bool) : Except SysErrNo (List (Change V)) := do
  if vfs.removed old then throw .ENOENT
  vfs.refuseVfat old .EXDEV .EXDEV
  vfs.refuseVfat (parentPath new) .EROFS .ENOTDIR
  if vfs.fileExists new || vfs.dirExists new then throw .EEXIST
  vfs.ensureMountWritable new
  grants.search old
  if vfs.isTmpfsPath old ≠ vfs.isTmpfsPath new then throw .EXDEV
  let extParent := vfs.ext4DirExists (parentPath new)
  if vfs.memExists old then
    if vfs.procfsLinkSource old then throw .EXDEV
    if !vfs.memIsDir (parentPath new) then
      throw (if !vfs.isTmpfsPath new && extParent then .EXDEV
        else if vfs.pathExistsNonDir (parentPath new) then .ENOTDIR else .ENOENT)
    if !vfs.isTmpfsPath new && extParent && !isMemfsVolatileDir (parentPath new) then throw .EXDEV
    grants.create (parentPath new)
    if vfs.memIsDir old then throw .EPERM
    return [⟨old, .memory old⟩, ⟨new, .memory new⟩]
  if vfs.isTmpfsPath old then throw (vfs.missingPathErrno old)
  if (vfs.disk old).isNone then
    throw (if vfs.pathExistsNonDir (parentPath old) then .ENOTDIR else .ENOENT)
  if vfs.memIsDir (parentPath new) && !extParent then throw .EXDEV
  if vfs.pathExistsNonDir (parentPath new) then throw .ENOTDIR
  if !extParent then throw .ENOENT
  grants.create (parentPath new)
  let target ← if followOld then vfs.resolveExt4Symlinks old else pure old
  return [⟨target, .ext4 target⟩, ⟨new, .ext4 new⟩]

-- The end of `create_symlink`, `create_dir_with_mode`, `create_regular_file` and `create_special_node`. A special
-- node is put above a directory of the ext4 volume.
def create (path : HostPath String) (ext4Place : Place V) (missing : SysErrNo) :
    Except SysErrNo (List (Change V)) := do
  vfs.refuseVfat (parentPath path) .EROFS .ENOTDIR
  vfs.ensureMountWritable path
  let memParent := vfs.memIsDir (parentPath path)
  let extParent := !vfs.isTmpfsPath (parentPath path) && vfs.ext4DirExists (parentPath path)
  if memParent || extParent then grants.create (parentPath path)
  if memParent && (isMemfsVolatileDir (parentPath path) || !extParent) then return [⟨path, .memory path⟩]
  if extParent then return [⟨path, ext4Place⟩]
  if memParent then return [⟨path, .memory path⟩]
  throw missing

def createSymlink (path : HostPath String) : Except SysErrNo (List (Change V)) := do
  if vfs.fileExists path || vfs.dirExists path then throw .EEXIST
  vfs.create grants path (.ext4 path) (if vfs.pathExistsNonDir (parentPath path) then .ENOTDIR else .ENOENT)

-- The other three clear the whiteout before they check anything but the existence of the path.
def createNew (path : HostPath String) (ext4Place : Place V) (missing : SysErrNo) : CallOutcome V :=
  if vfs.fileExists path || vfs.dirExists path then .of (.error .EEXIST)
  else
    { CallOutcome.of (vfs.create grants path ext4Place missing) with
      cleared := if vfs.removed path then some path else none }

def createDir (path : HostPath String) : CallOutcome V :=
  match vfs.resolveParentSymlinksForLookup path with
  | .error e => .of (.error e)
  | .ok norm => vfs.createNew grants norm (.ext4 norm) .ENOENT

-- The object that the ext4 volume changes for a path that it is passed as it is.
def ext4Target (path : HostPath String) (follow : Bool) : Except SysErrNo (HostPath String) :=
  if vfs.isTmpfsPath path then .error (vfs.missingPathErrno path)
  else
    match vfs.disk path with
    | some (.symlink ..) => if follow then vfs.resolveExt4Symlinks path else .ok path
    | some _             => .ok path
    | none               => .error (vfs.missingPathErrno path)

def truncatePath (path : HostPath String) : Except SysErrNo (List (Change V)) := do
  let norm ← vfs.resolveParentSymlinksForLookup path
  vfs.refuseVfat norm .EISDIR .EROFS
  vfs.ensureMountWritable norm
  grants.search norm
  let target ← vfs.resolveFinalSymlink norm
  if target ≠ norm then vfs.ensureMountWritable target
  match vfs.mem target with
  | some (.directory _) => throw .EISDIR
  | some (.regular _)   =>
    grants.modify (← vfs.metadataFollow target)
    return [⟨target, .memory target⟩]
  | some (.other _)     => throw .EINVAL
  | _                   =>
    let extPath ← vfs.ext4Target target true
    grants.modify (← vfs.metadataFollow extPath)
    return [⟨extPath, .ext4 extPath⟩]

-- `set_mode_path`, `set_owner_path` and `set_times_path`, of which the last one changes only regular files in
-- memory. A link in memory is followed by a call for its target.
def setAttributesWith (again : HostPath String → Except SysErrNo (List (Change V))) (path : HostPath String)
    (follow : Bool) : Except SysErrNo (List (Change V)) := do
  vfs.refuseVfat path .EROFS .EROFS
  vfs.ensureMountWritable path
  grants.search path
  match vfs.mem path with
  | some node =>
    if node.target?.isSome && follow then again (← vfs.resolveFinalSymlink path)
    else
      grants.modify (← if node.target?.isSome then vfs.lookup path else vfs.metadataFollow path)
      return [⟨path, .memory path⟩]
  | none      =>
    let extPath ← vfs.ext4Target path follow
    grants.modify (← vfs.metadataFollow extPath)
    return [⟨extPath, .ext4 extPath⟩]

-- What `resolve_final_symlink` gives is no link, unless an ext4 mount hides the link in memory; then the source
-- does not come back.
def setAttributes (path : HostPath String) (follow : Bool) : Except SysErrNo (List (Change V)) :=
  vfs.setAttributesWith grants
    (fun target => vfs.setAttributesWith grants (fun _ => .error .ELOOP) target true) path follow

def setXattr (path : HostPath String) (follow : Bool) : Except SysErrNo (List (Change V)) := do
  let norm ← vfs.resolveParentSymlinksForLookup path
  if vfs.removed norm then throw .ENOENT
  grants.search norm
  let target ← if follow then vfs.resolveFinalSymlink norm else pure norm
  vfs.refuseVfat target .EROFS .EROFS
  vfs.ensureMountWritable target
  if vfs.memExists target then return [⟨target, .memory target⟩]
  if vfs.isTmpfsPath target then throw (vfs.missingPathErrno target)
  throw (if (vfs.disk (vfs.ext4LookupPath target)).isSome then .EOPNOTSUPP else vfs.missingPathErrno target)

-- The path of the object that `open_path` opens.
def openNorm (path : HostPath String) (flags : OpenFlags) : Except SysErrNo (HostPath String) := do
  if vfs.removed path then
    if flags.create then return path else throw .ENOENT
  let lookupNorm ← vfs.resolveParentSymlinksForLookup path
  vfs.resolveFinalComponentSymlink lookupNorm flags.nofollow

-- The end of `open_path` for an object that does not exist.
def openCreate (path : HostPath String) : Except SysErrNo (List (Change V)) := do
  let parent := parentPath path
  let parentMountedExt4 := !vfs.isTmpfsPath parent && (vfs.mountedExt4BackendPath parent).isSome
  let memParent := !parentMountedExt4 && vfs.memIsDir parent
  let extParent := !vfs.isTmpfsPath parent && vfs.ext4DirExists (vfs.ext4LookupPath parent)
  if memParent || extParent then grants.create parent
  if memParent && (isMemfsVolatileDir parent || !extParent) then return [⟨path, .memory path⟩]
  if extParent then return [⟨path, .ext4 (vfs.ext4LookupPath path)⟩]
  if memParent then return [⟨path, .memory path⟩]
  throw (vfs.missingPathErrno path)

def openTmpfile (path : HostPath String) (flags : OpenFlags) : Except SysErrNo (List (Change V)) := do
  if flags.create then throw .EINVAL
  let mountedExt4 := !vfs.isTmpfsPath path && (vfs.mountedExt4BackendPath path).isSome
  let memDir := !mountedExt4 && vfs.memIsDir path
  let extNode := if vfs.isTmpfsPath path then none else vfs.disk (vfs.ext4LookupPath path)
  if memDir && (vfs.isTmpfsPath path || !extNode.any Node.isDirectory) then
    grants.create path
    return []
  if memDir || extNode.any Node.isDirectory then throw .EOPNOTSUPP
  throw (if vfs.pathExistsNonDir path || extNode.isSome then .ENOTDIR else vfs.missingPathErrno path)

-- `open_path` of an object that is no loop device and lies on no vfat volume.
def openObject (path : HostPath String) (flags : OpenFlags) (removed : Bool) :
    Except SysErrNo (List (Change V)) := do
  let mountedExt4 := !vfs.isTmpfsPath path && (vfs.mountedExt4BackendPath path).isSome
  let memNode := if mountedExt4 then none else vfs.mem path
  let extPath := vfs.ext4LookupPath path
  let extNode := if vfs.isTmpfsPath path then none else vfs.disk extPath
  match memNode with
  | some (.regular _) =>
    if flags.directory then throw .ENOTDIR
    if flags.exclusive && flags.create then throw .EEXIST
    grants.modify (← vfs.metadataFollow path)
    return if flags.write then [⟨path, .memory path⟩] else []
  | some (.other _)   =>
    if flags.directory then throw .ENOTDIR
    if flags.exclusive && flags.create then throw .EEXIST
    grants.modify (← vfs.lookup path)
    return []
  | _                 =>
    if memNode.any Node.isDirectory || extNode.any Node.isDirectory then
      if flags.write || flags.truncate || flags.create then throw .EISDIR
      grants.search path
      return []
    if flags.directory then
      throw (if extNode.isSome || vfs.pathExistsNonDir path then .ENOTDIR else vfs.missingPathErrno path)
    match if removed then none else extNode with
    | some (.regular metadata) =>
      if flags.exclusive && flags.create then throw .EEXIST
      grants.modify (.regular metadata)
      return if flags.write then [⟨path, .ext4 extPath⟩] else []
    | _                        =>
      if flags.create then vfs.openCreate grants path else throw (vfs.missingPathErrno path)

def openPath (path : HostPath String) (flags : OpenFlags) : Except SysErrNo (List (Change V)) := do
  if flags.tmpfile && !flags.write then throw .EINVAL
  if flags.directory && flags.create && !flags.tmpfile then throw .EINVAL
  if flags.pathOnly then
    if vfs.removed path && !flags.create then throw .ENOENT
    let lookupNorm ← if vfs.removed path then pure path else vfs.resolveParentSymlinksForLookup path
    if flags.create || flags.truncate then throw .EINVAL
    let node ← if flags.nofollow then vfs.lookup lookupNorm else vfs.metadataFollow lookupNorm
    if flags.directory && !node.isDirectory then throw .ENOTDIR
    return []
  let norm ← vfs.openNorm path flags
  if (flags.create || flags.truncate || flags.write) && vfs.isReadonlyMountPath norm then throw .EROFS
  if vfs.loopDevice norm then
    if flags.directory then throw .ENOTDIR
    if flags.create && flags.exclusive then throw .EEXIST
    return []
  match vfs.mountedVfatBackend norm with
  | some (volume, path) =>
    if flags.create || flags.truncate || flags.write then throw .EROFS
    let node ← vfs.volume volume path
    if flags.directory && !node.isDirectory then throw .ENOTDIR
    return []
  | none                =>
    if flags.tmpfile then vfs.openTmpfile grants norm flags
    else vfs.openObject grants norm flags (vfs.removed path)

def call : VfsCall → CallOutcome V
  | .openPath path flags          => .of (vfs.openPath grants path flags)
  | .removeFile path              => .of (vfs.removeFile grants path)
  | .removeDir path               => .of (vfs.removeDir grants path)
  | .renamePath old new noReplace => .of (vfs.renamePath grants old new noReplace)
  | .renameExchange old new       => .of (vfs.renameExchange grants old new)
  | .linkPath old new followOld   => .of (vfs.linkPath grants old new followOld)
  | .createSymlink path           => .of (vfs.createSymlink grants path)
  | .createDir path               => vfs.createDir grants path
  | .createRegular path           => vfs.createNew grants path (.ext4 path) .ENOENT
  | .createSpecial path           =>
    vfs.createNew grants path (.memory path) (if vfs.pathExistsNonDir (parentPath path) then .ENOTDIR else .ENOENT)
  | .truncatePath path            => .of (vfs.truncatePath grants path)
  | .setAttributes path follow    => .of (vfs.setAttributes grants path follow)
  | .setXattr path follow         => .of (vfs.setXattr grants path follow)

def directoryAt : Place V → Bool
  | .memory path => vfs.memIsDir path
  | .ext4 path   => vfs.ext4DirExists path
  | .vfat ..     => false

-- The target to which the ext4 volume follows a last link, for a call that passes it the path as it is.
def followedFrom (path : HostPath String) : List (HostPath String) :=
  if (vfs.mem path).any (·.target?.isNone) then []
  else if ((vfs.disk path).bind Node.target?).isSome then (vfs.resolveExt4Symlinks path).toOption.toList
  else []

end Vfs

namespace VfsCall

variable {V : Type} (vfs : Vfs V)

def routing : VfsCall → Routing
  | openPath .. => .translated
  | setXattr .. => .xattr
  | _           => .literal

-- The paths that a call names, once it has resolved its arguments.
def paths : VfsCall → List (HostPath String)
  | openPath path flags    => (vfs.openNorm path flags).toOption.toList
  | removeFile path        => [path]
  | removeDir path         => (vfs.resolveParentSymlinksForLookup path).toOption.toList
  | renamePath old new _   => [old, new]
  | renameExchange old new => [old, new]
  | linkPath old new _     => [old, new]
  | createSymlink path     => [path]
  | createDir path         => (vfs.resolveParentSymlinksForLookup path).toOption.toList
  | createRegular path     => [path]
  | createSpecial path     => [path]
  | truncatePath path      => (vfs.resolveParentSymlinksForLookup path >>= vfs.resolveFinalSymlink).toOption.toList
  | setAttributes path follow =>
    path :: if follow then (vfs.resolveFinalSymlink path).toOption.toList else []
  | setXattr path follow   =>
    (do let norm ← vfs.resolveParentSymlinksForLookup path
        if follow then vfs.resolveFinalSymlink norm else pure norm).toOption.toList

-- The paths that a call reaches through a link after its test for vfat volumes.
def linked (call : VfsCall) : List (HostPath String) :=
  match call with
  | truncatePath _ => call.paths vfs
  | _              => []

-- The paths to which the ext4 volume follows a last link.
def followed : VfsCall → List (HostPath String)
  | linkPath old _ true    => if vfs.memExists old then [] else (vfs.resolveExt4Symlinks old).toOption.toList
  | truncatePath path      => (truncatePath path).paths vfs |>.flatMap vfs.followedFrom
  | setAttributes path follow => if follow then (setAttributes path follow).paths vfs |>.flatMap vfs.followedFrom else []
  | _                      => []

-- The paths at which a call may create an object.
def created (call : VfsCall) : List (HostPath String) :=
  match call with
  | openPath _ flags  => if flags.create then call.paths vfs else []
  | createSymlink ..
  | createDir ..
  | createRegular ..
  | createSpecial ..  => call.paths vfs
  | _                 => []

-- The paths under which a call enters an object that it takes from elsewhere, and those from where it takes it away.
def moved : VfsCall → List (HostPath String)
  | renamePath old new _
  | renameExchange old new => [old, new]
  | linkPath _ new _       => [new]
  | _                      => []

-- The whiteouts that a call clears before it checks anything.
def clears (call : VfsCall) : List (HostPath String) :=
  match call with
  | createDir ..
  | createRegular ..
  | createSpecial .. => (call.paths vfs).filter vfs.removed
  | _                => []

def displaces : VfsCall → Bool
  | removeFile ..
  | removeDir ..
  | renamePath ..
  | renameExchange .. => true
  | _                 => false

-- A call whose paths its own routines look up in the innermost mount, and no change of which escapes the check for
-- mounts that are read-only.
structure Simple (call : VfsCall) : Prop where
  straight : ∀ path ∈ call.paths vfs ++ call.followed vfs, vfs.Straight path call.routing
  rooted   : ∀ path ∈ call.paths vfs, ∀ entry, vfs.innermost path = some entry → entry.hostTarget = [] →
    entry.readonly → path = []
  linked   : ∀ path ∈ call.linked vfs, vfs.mountedVfat path = none
  followed : ∀ path ∈ call.followed vfs,
    ¬vfs.ReadOnly path ∧ ¬vfs.isTmpfsPath path ∧ vfs.mountedVfat path = none
  source   : ∀ old new followOld, call = linkPath old new followOld → ¬vfs.ReadOnly old
  created  : ∀ path ∈ call.created vfs,
    ¬vfs.isMountpoint path ∧ isMemfsVolatileDir path = isMemfsVolatileDir (parentPath path)
  moved    : ∀ path ∈ call.moved, ¬vfs.isMountpoint path
  clears   : ∀ path ∈ call.clears vfs, ¬vfs.ReadOnly path

-- What a change must be like: it is made where the innermost mount of its path stores it, this mount is not
-- read-only, and no directory is taken away from where something is mounted.
structure Admits (call : VfsCall) (c : Change V) : Prop where
  routed    : (vfs.innermostRoute c.path).Holds c.place
  writable  : ¬vfs.ReadOnly c.path
  displaced : call.displaces → vfs.directoryAt c.place → ¬vfs.isMountpoint c.path

end VfsCall

end WllOs.Fs
