import WllOs.Fs.Lookup

namespace WllOs.Fs

-- The `RESOLVE_*` flags.
structure ResolveFlags where
  beneath      : Bool
  inRoot       : Bool
  noSymlinks   : Bool
  noMagiclinks : Bool
  noXdev       : Bool
  deriving DecidableEq, Repr

-- What `validate_openat2_how` lets through, as far as it bears on the path.
structure OpenHow where
  create   : Bool
  nofollow : Bool
  pathOnly : Bool
  resolve  : ResolveFlags
  valid    : ¬(resolve.beneath ∧ resolve.inRoot)

-- What a call knows of its task: the root, the logical path of the starting directory, the path of the
-- program that `/proc/self/exe` stands for, and the paths at which there are mounts.
structure OpenTask (N : Type) where
  root              : HostPath N
  base              : HostPath N
  magicLink         : HostPath N → Bool
  execPath          : Option (HostPath N)
  crossesMountpoint : HostPath N → Bool

namespace PathText

variable {N : Type} (path : PathText N)

def isEmpty [DecidableEq N] : Bool :=
  path = ⟨false, [.empty]⟩

-- `path_has_parent_component`.
def hasParentComponent [DecidableEq N] : Bool :=
  path.parts.contains .dotdot

end PathText

variable {N : Type}

-- The loop of `resolve_path_in_root_str`, which stops at the starting directory.
def pushInRoot (rootLen : Nat) (path : HostPath N) : Part N → HostPath N
  | .empty          => path
  | .dot            => path
  | .dotdot         => if path.length > rootLen then path.dropLast else path
  | .name component => path ++ [component]

def resolvePathInRoot (base : HostPath N) (path : PathText N) : HostPath N :=
  path.parts.foldl (pushInRoot base.length) base

namespace Namespace

variable (fs : Namespace N)

-- `path_contains_symlink`: the components from the first on.
def pathContainsSymlink : HostPath N → HostPath N → Except SysErrNo Bool
  | _,       []                => .ok false
  | current, component :: rest => do
    match ← fs.lookupSymlinkTarget (current ++ [component]) with
    | some _ => return true
    | none   => pathContainsSymlink (current ++ [component]) rest

-- The path of the object that `open_path` opens.
def openPath (path : HostPath N) (how : OpenHow) : Except SysErrNo (HostPath N) :=
  if fs.removed path then if how.create then .ok path else .error .ENOENT
  else do
    let lookupNorm ← fs.resolveParentSymlinksForLookup path
    if how.pathOnly then return lookupNorm
    else fs.resolveFinalComponentSymlink lookupNorm how.nofollow

-- The paths on which `open_path` goes.
def openHops (path : HostPath N) (how : OpenHow) : List (HostPath N) :=
  if fs.removed path then [path]
  else
    fs.parentHops path fun norm => if how.pathOnly then [] else fs.finalComponentHops norm how.nofollow

-- The file system as it is seen from a directory.
def under (directory : HostPath N) : Namespace N where
  removed path    := fs.removed (directory ++ path)
  tmpfs path      := fs.tmpfs (directory ++ path)
  mem path        := fs.mem (directory ++ path)
  disk path       := fs.disk (directory ++ path)
  closed path c h := fs.closed (directory ++ path) c (by simpa using h)

end Namespace

namespace OpenTask

variable [DecidableEq N] (task : OpenTask N) (fs : Namespace N)

-- `openat2_resolve_path_str`.
def openat2ResolvePath (path : PathText N) (resolve : ResolveFlags) :
    Except SysErrNo (HostPath N × HostPath N) :=
  if resolve.beneath && (path.absolute || path.hasParentComponent) then .error .EXDEV
  else if path.isEmpty then .error .ENOENT
  else
    let logical := if resolve.inRoot then resolvePathInRoot task.base path else resolvePath task.base path
    if resolve.beneath && !pathIsUnderOrSame logical task.base then .error .EXDEV
    else
      let host := applyRoot task.root logical
      if (resolve.noMagiclinks || resolve.noSymlinks) && task.magicLink logical then .error .ELOOP
      else if resolve.noXdev && task.crossesMountpoint host then .error .EXDEV
      else if resolve.noSymlinks then
        match fs.pathContainsSymlink [] host with
        | .error e   => .error e
        | .ok true   => .error .ELOOP
        | .ok false  => .ok (logical, host)
      else .ok (logical, host)

-- The magic link of `open_resolved_path`.
def magicPath (how : OpenHow) (logical host : HostPath N) : Except SysErrNo (HostPath N) :=
  if task.magicLink logical then
    match task.execPath with
    | none        => .error .ENOENT
    | some target => if how.nofollow then .error .ELOOP else .ok (applyRoot task.root target)
  else .ok host

-- The path of the object that `openat2` opens.
def openat2 (path : PathText N) (how : OpenHow) : Except SysErrNo (HostPath N) := do
  let (logical, host) ← task.openat2ResolvePath fs path how.resolve
  let host ← task.magicPath how logical host
  fs.openPath host how

-- The paths on which the call goes.
def openat2Hops (path : PathText N) (how : OpenHow) : List (HostPath N) :=
  match task.openat2ResolvePath fs path how.resolve with
  | .error _           => []
  | .ok (logical, host) =>
    match task.magicPath how logical host with
    | .error _ => []
    | .ok host => fs.openHops host how

-- The starting directory in host coordinates.
def start : HostPath N :=
  applyRoot task.root task.base

-- No component of the path, and of the links on its way, is looked up outside the starting directory.
def StaysBeneath (path : PathText N) (final : FinalLink) : Prop :=
  (∀ directory ∈ fs.posixSearched final Namespace.maxLinks (if path.absolute then task.root else task.start) path.parts,
    task.start <+: directory) ∧
  ∀ target, fs.posixResolve final Namespace.maxLinks (if path.absolute then task.root else task.start) path.parts = .ok target →
    task.start <+: target

-- All links on the way lead to the same place if the starting directory is taken for the root.
def ReadsAlike (path : PathText N) (how : OpenHow) : Prop :=
  ∀ hop ∈ (fs.under task.start).openHops (normalize [] path.parts) how, ∀ part, part <+: hop → ∀ target,
    fs.lookupSymlinkTarget (task.start ++ part) = .ok (some target) →
    symlinkTargetPath (task.start ++ part) target = task.start ++ symlinkTargetPath part target

end OpenTask

end WllOs.Fs
