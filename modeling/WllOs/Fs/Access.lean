import WllOs.Fs.Lookup
import WllOs.Task.Credentials

namespace WllOs.Fs

inductive CredentialIdentity
  | real
  | effective
  | filesystem
  deriving DecidableEq, Repr

namespace CredentialIdentity

def id (ids : Ids) : CredentialIdentity → BitVec 32
  | real       => ids.real
  | effective  => ids.effective
  | filesystem => ids.fs

def uid (identity : CredentialIdentity) (credentials : Credentials) : BitVec 32 :=
  identity.id credentials.uids

def isInGroup (identity : CredentialIdentity) (credentials : Credentials) (gid : BitVec 32) : Bool :=
  identity.id credentials.gids = gid || credentials.supplementaryGroups.contains gid

end CredentialIdentity

-- The `R_OK`, `W_OK` and `X_OK` of an access mode.
structure AccessMode where
  read    : Bool
  write   : Bool
  execute : Bool
  deriving DecidableEq, Repr

def AccessMode.required (mode : AccessMode) : BitVec 32 :=
  (if mode.read then 4 else 0) ||| (if mode.write then 2 else 0) ||| (if mode.execute then 1 else 0)

def AccessMode.search : AccessMode := ⟨false, false, true⟩

def AccessMode.change : AccessMode := ⟨false, true, true⟩

namespace Node

variable {N : Type}

def metadata : Node N → Metadata
  | regular metadata   => metadata
  | directory metadata => metadata
  | symlink _ metadata => metadata
  | other metadata     => metadata

-- The permission bits of the class that the identity belongs to.
def permissions (node : Node N) (credentials : Credentials) (identity : CredentialIdentity) : BitVec 32 :=
  let shift :=
    if identity.uid credentials = node.metadata.uid then 6
    else if identity.isInGroup credentials node.metadata.gid then 3
    else 0
  (node.metadata.mode >>> shift) &&& 7

-- `check_metadata_access_with_identity`.
def checkAccess (node : Node N) (credentials : Credentials) (mode : AccessMode) (identity : CredentialIdentity) :
    Except SysErrNo Unit :=
  if identity.uid credentials = 0 then
    match node with
    | regular metadata => if mode.execute ∧ metadata.mode &&& 0o111 = 0 then .error .EACCES else .ok ()
    | _                => .ok ()
  else if node.permissions credentials identity &&& mode.required ≠ mode.required then .error .EACCES
  else .ok ()

end Node

-- The operations of a task on paths, as far as permissions go. `open` takes the access to the object, and
-- whether the flags are `O_NOFOLLOW`, `O_CREAT` and `O_PATH`.
inductive AccessCall (N : Type)
  | stat (path : PathText N) (follow : Bool)
  | «open» (path : PathText N) (mode : AccessMode) (nofollow create pathOnly : Bool)
  | readlink (path : PathText N)
  | unlink (path : PathText N)
  | rename (old new : PathText N)
  | link (old new : PathText N)
  | mkdir (path : PathText N)
  | chmod (path : PathText N) (follow : Bool)
  | truncate (path : PathText N)
  | execve (path : PathText N)

-- What a call knows of its task.
structure AccessTask (N : Type) where
  credentials : Credentials
  cwd         : HostPath N

namespace AccessTask

variable {N : Type} (task : AccessTask N) (fs : Namespace N)

-- The loop of `check_search_access`: all components but the last one.
def searchComponents (identity : CredentialIdentity) : HostPath N → HostPath N → Except SysErrNo Unit
  | _,       []                => .ok ()
  | _,       [_]               => .ok ()
  | current, component :: rest => do
    let (_, node) ← fs.metadataFollow (current ++ [component])
    node.checkAccess task.credentials .search identity
    searchComponents identity (current ++ [component]) rest

def checkSearchAccess (path : HostPath N) (identity : CredentialIdentity) : Except SysErrNo Unit :=
  if identity.uid task.credentials = 0 then .ok ()
  else task.searchComponents fs identity [] path

-- What `check_create_access` and `check_delete_access` demand of a directory.
def checkChangeAccess (parent : HostPath N) : Except SysErrNo (Node N) := do
  let (_, node) ← fs.metadataFollow parent
  if !node.isDirectory then throw .ENOTDIR
  task.checkSearchAccess fs parent .filesystem
  node.checkAccess task.credentials .change .filesystem
  return node

def checkCreateAccess (parent : HostPath N) : Except SysErrNo Unit := do
  let _ ← task.checkChangeAccess fs parent

def sticky : BitVec 32 := 0o1000

def checkDeleteAccess (path : HostPath N) (target : Node N) : Except SysErrNo Unit := do
  let parent ← task.checkChangeAccess fs (parentPath path)
  let uid := task.credentials.uids.fs
  if uid ≠ 0 ∧ parent.metadata.mode &&& sticky ≠ 0 ∧ uid ≠ parent.metadata.uid ∧ uid ≠ target.metadata.uid then
    throw .EPERM

-- The host path of an argument.
def host (path : PathText N) : HostPath N :=
  resolvePath task.cwd path

-- The path at which `open_path` opens or creates an object.
def openNorm (path : HostPath N) (nofollow create : Bool) : Except SysErrNo (HostPath N) :=
  if fs.removed path then if create then .ok path else .error .ENOENT
  else do
    let lookupNorm ← fs.resolveParentSymlinksForLookup path
    fs.resolveFinalComponentSymlink lookupNorm nofollow

-- The resolution of the paths of a call, and the checks that it makes before it acts.
def access : AccessCall N → Except SysErrNo Unit
  | .stat path follow => do
    let norm ← fs.resolveParentSymlinksForLookup (task.host path)
    task.checkSearchAccess fs norm .filesystem
    if follow then
      let _ ← fs.metadataFollow norm
    else
      let _ ← fs.lookup norm
  | .open path mode nofollow create pathOnly => do
    if pathOnly then
      let lookupNorm ← fs.resolveParentSymlinksForLookup (task.host path)
      if nofollow then
        let _ ← fs.lookup lookupNorm
      else
        let _ ← fs.metadataFollow lookupNorm
    else
      let norm ← openNorm fs (task.host path) nofollow create
      match fs.lookup norm with
      | .ok node =>
        task.checkSearchAccess fs norm .filesystem
        node.checkAccess task.credentials mode .filesystem
      | .error e =>
        if create then task.checkCreateAccess fs (parentPath norm) else throw e
  | .readlink path => do
    let norm ← fs.resolveParentSymlinksForLookup (task.host path)
    task.checkSearchAccess fs norm .filesystem
  | .unlink path => do
    let target ← fs.lookup (task.host path)
    task.checkDeleteAccess fs (task.host path) target
  | .rename old new => do
    let oldTarget ← fs.lookup (task.host old)
    task.checkDeleteAccess fs (task.host old) oldTarget
    match fs.lookup (task.host new) with
    | .ok newTarget   => task.checkDeleteAccess fs (task.host new) newTarget
    | .error .ENOENT  => task.checkCreateAccess fs (parentPath (task.host new))
    | .error e        => throw e
  | .link old new => do
    task.checkSearchAccess fs (task.host old) .filesystem
    task.checkCreateAccess fs (parentPath (task.host new))
  | .mkdir path => do
    let norm ← fs.resolveParentSymlinksForLookup (task.host path)
    task.checkCreateAccess fs (parentPath norm)
  | .chmod path follow => do
    task.checkSearchAccess fs (task.host path) .effective
    if follow ∧ ((fs.mem (task.host path)).bind Node.target?).isSome then
      let resolved ← fs.resolveFinalSymlink (task.host path) false
      task.checkSearchAccess fs resolved .effective
  | .truncate path => do
    let norm ← fs.resolveParentSymlinksForLookup (task.host path)
    task.checkSearchAccess fs norm .effective
    let target ← fs.resolveFinalSymlink norm false
    let (_, node) ← fs.metadataFollow target
    node.checkAccess task.credentials ⟨false, true, false⟩ .effective
  | .execve path => do
    let _ ← fs.resolveFinalSymlink (task.host path) false

-- The directories that `check_search_access` for a path looks at.
def properAncestors (path : HostPath N) : List (HostPath N) :=
  path.dropLast.inits.tail

-- Both identities have the same ids.
def sameIds (identity : CredentialIdentity) : Bool :=
  identity.id task.credentials.uids = task.credentials.uids.fs &&
    identity.id task.credentials.gids = task.credentials.gids.fs

def searchChecked (path : HostPath N) (identity : CredentialIdentity) : List (HostPath N) :=
  if task.sameIds identity then properAncestors path else []

def changeChecked (parent : HostPath N) : List (HostPath N) :=
  parent :: properAncestors parent

-- The directories that a call has checked with the task's own ids for file systems when it goes on.
def checked : AccessCall N → List (HostPath N)
  | .stat path _ =>
    (fs.resolveParentSymlinksForLookup (task.host path)).toOption.elim [] properAncestors
  | .open path _ nofollow create pathOnly =>
    if pathOnly then []
    else
      match openNorm fs (task.host path) nofollow create with
      | .error _ => []
      | .ok norm => if (fs.lookup norm).toOption.isSome then properAncestors norm else changeChecked (parentPath norm)
  | .readlink path =>
    (fs.resolveParentSymlinksForLookup (task.host path)).toOption.elim [] properAncestors
  | .unlink path     => changeChecked (parentPath (task.host path))
  | .rename old new  => changeChecked (parentPath (task.host old)) ++ changeChecked (parentPath (task.host new))
  | .link old new    => properAncestors (task.host old) ++ changeChecked (parentPath (task.host new))
  | .mkdir path      =>
    (fs.resolveParentSymlinksForLookup (task.host path)).toOption.elim [] (changeChecked <| parentPath ·)
  | .chmod path follow =>
    task.searchChecked (task.host path) .effective ++
      if follow ∧ ((fs.mem (task.host path)).bind Node.target?).isSome then
        (fs.resolveFinalSymlink (task.host path) false).toOption.elim [] (task.searchChecked · .effective)
      else []
  | .truncate path =>
    (fs.resolveParentSymlinksForLookup (task.host path)).toOption.elim [] (task.searchChecked · .effective)
  | .execve _ => []

-- The directories of which a call changes the entries.
def changed : AccessCall N → List (HostPath N)
  | .open path _ nofollow create pathOnly =>
    if pathOnly then []
    else
      match openNorm fs (task.host path) nofollow create with
      | .error _ => []
      | .ok norm => if (fs.lookup norm).toOption.isSome then [] else [parentPath norm]
  | .unlink path    => [parentPath (task.host path)]
  | .rename old new => [parentPath (task.host old), parentPath (task.host new)]
  | .link _ new     => [parentPath (task.host new)]
  | .mkdir path     =>
    (fs.resolveParentSymlinksForLookup (task.host path)).toOption.elim [] ([parentPath ·])
  | _               => []

-- The arguments of a call, and how it treats a last link.
def arguments : AccessCall N → List (PathText N × FinalLink)
  | .stat path follow           => [(path, if follow then .follow else .preserve)]
  | .open path _ nofollow _ pathOnly =>
    [(path, if !nofollow then .follow else if pathOnly then .preserve else .reject)]
  | .readlink path              => [(path, .preserve)]
  | .unlink path                => [(path, .preserve)]
  | .rename old new             => [(old, .preserve), (new, .preserve)]
  | .link old new               => [(old, .preserve), (new, .preserve)]
  | .mkdir path                 => [(path, .preserve)]
  | .chmod path follow          => [(path, if follow then .follow else .preserve)]
  | .truncate path              => [(path, .follow)]
  | .execve path                => [(path, .follow)]

-- The directories that the component-wise resolution of the arguments goes through.
def searched (call : AccessCall N) : List (HostPath N) :=
  (arguments call).flatMap fun (path, final) =>
    fs.posixSearched final Namespace.maxLinks (if path.absolute then [] else task.cwd) path.parts

-- The task may access the object at a path.
def May (path : HostPath N) (mode : AccessMode) : Prop :=
  ∃ node, fs.lookup path = .ok node ∧ node.checkAccess task.credentials mode .filesystem = .ok ()

end AccessTask

end WllOs.Fs
