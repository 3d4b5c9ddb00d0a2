import WllOs.Fs.Lookup

namespace WllOs.Fs

-- The calls on paths, with what they do about a final link where the caller decides it.
inductive PathOperation
  | stat (follow : Bool)
  | «open» (nofollow : Bool)
  | access (follow : Bool)
  | truncate
  | chmod (follow : Bool)
  | chown (follow : Bool)
  | utimensat (follow : Bool)
  | readlink
  | unlink
  | rmdir
  | rename
  | link
  | symlink
  | mkdir
  | mknod
  deriving DecidableEq, Repr

namespace PathOperation

-- `access` calls `metadata` for the path as it is given, as the changes of attributes do.
def call : PathOperation → PathCall
  | stat true      => .stat
  | stat false     => .parents
  | .open nofollow => .openPath nofollow
  | access true    => .change
  | access false   => .literal
  | truncate       => .truncate
  | chmod true     => .change
  | chmod false    => .literal
  | chown true     => .change
  | chown false    => .literal
  | utimensat true => .change
  | utimensat false => .literal
  | readlink       => .parents
  | unlink         => .literal
  | rmdir          => .parents
  | rename         => .literal
  | link           => .literal
  | symlink        => .literal
  | mkdir          => .parents
  | mknod          => .literal

def followsFinal : PathOperation → Bool
  | stat follow      => follow
  | .open nofollow   => !nofollow
  | access follow    => follow
  | truncate         => true
  | chmod follow     => follow
  | chown follow     => follow
  | utimensat follow => follow
  | _                => false

end PathOperation

namespace Namespace

variable {N : Type} (fs : Namespace N)

def literalDirectory (path : HostPath N) : Option (HostPath N) :=
  match fs.lookup (parentPath path) with
  | .ok (.directory _) => some (parentPath path)
  | _                  => none

def resolvedDirectory (path : HostPath N) : Option (HostPath N) :=
  (fs.resolveParentSymlinksForLookup path).toOption.map parentPath

-- The directory in which a call looks up the last component, if there is one.
def directoryOf (path : HostPath N) : PathCall → Option (HostPath N)
  | .literal | .change => fs.literalDirectory path
  | .openPath _        => if fs.removed path then fs.literalDirectory path else fs.resolvedDirectory path
  | _                  => fs.resolvedDirectory path

-- The object that a call reaches, if there is one.
def objectOf (path : HostPath N) (call : PathCall) : Option (HostPath N × Node N) :=
  match fs.reach path call with
  | .ok (target, .ok node) => some (target, node)
  | _                      => none

-- The same as POSIX has it.
def posixDirectory (start : HostPath N) (parts : List (Part N)) : Option (HostPath N) :=
  (fs.posixResolve .preserve maxLinks start parts).toOption.map parentPath

def posixObject (start : HostPath N) (parts : List (Part N)) : Option (HostPath N × Node N) :=
  (fs.posixResolve .follow maxLinks start parts).toOption.bind fun target =>
    (fs.lookup target).toOption.map (target, ·)

-- The object is on the ext4 volume, and nothing hides it.
def OnDisk (path : HostPath N) : Prop :=
  fs.removed path = false ∧ fs.tmpfs path = false ∧ fs.mem path = none ∧ fs.disk path ≠ none

end Namespace

-- A text in which no `..`, and nothing else that is not a name, stands after a name.
def Straight {N : Type} (parts : List (Part N)) : Prop :=
  ∃ steps names, parts = steps ++ List.map .name names ∧ ∀ step ∈ steps, ∀ name, step ≠ .name name

namespace Namespace

variable {N : Type} (fs : Namespace N)

-- The texts that are resolved on the way, each from a directory.
def posixLegs (final : FinalLink) : Nat → HostPath N → List (Part N) → List (HostPath N × List (Part N))
  | 0,         directory, parts => [(directory, parts)]
  | links + 1, directory, parts => (directory, parts) ::
    match fs.posixScan final directory parts with
    | .ok (.redirected next rest) => posixLegs final links next rest
    | _                           => []

-- Component by component, and by the text, the same directory is reached, or none.
def DirectoryAgrees (start path : HostPath N) (parts : List (Part N)) : Prop :=
  fs.literalDirectory path = fs.posixDirectory start parts ∧
  (fs.posixDirectory start parts = none → fs.resolvedDirectory path = none)

-- The link is the object at the path, and in no text on its way a `..` stands after a name. If the link is not
-- in memory, all that is asked about on its way is on the ext4 volume.
structure LinkAgrees (path : HostPath N) (target : PathText N) : Prop where
  shown    : ∃ metadata, fs.lookup path = .ok (.symlink target metadata)
  straight : ∀ leg ∈ fs.posixLegs .follow maxLinks (if target.absolute then [] else parentPath path) target.parts,
    Straight leg.2
  onDisk   : fs.mem path = none → ∀ part ∈ fs.vfs.visited .follow maxLinks path, fs.OnDisk part
  «end»    : fs.mem path = none → ∀ resolved, fs.resolveFinalSymlink path false = .ok resolved → fs.OnDisk resolved

end Namespace

end WllOs.Fs
