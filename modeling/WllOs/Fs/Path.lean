import WllOs.Mm.Basic

namespace WllOs.Fs

-- What stands between two slashes in the text of a path.
inductive Part (N : Type)
  | empty
  | dot
  | dotdot
  | name (component : N)
  deriving DecidableEq, Repr

-- The text of a path, split at its slashes. An absolute path starts with a slash.
structure PathText (N : Type) where
  absolute : Bool
  parts    : List (Part N)
  deriving DecidableEq, Repr

-- A normalised absolute path.
abbrev HostPath (N : Type) := List N

variable {N : Type}

namespace Part

-- The loop body of `normalize_path`.
def push (path : HostPath N) : Part N → HostPath N
  | empty          => path
  | dot            => path
  | dotdot         => path.dropLast
  | name component => path ++ [component]

end Part

-- `normalize_path` of `parts` after `path`.
def normalize (path : HostPath N) (parts : List (Part N)) : HostPath N :=
  parts.foldl Part.push path

def parentPath (path : HostPath N) : HostPath N :=
  path.dropLast

-- `resolve_path` of `fs/mod.rs`.
def resolvePath (cwd : HostPath N) (path : PathText N) : HostPath N :=
  if path.absolute then normalize [] path.parts
  else normalize cwd path.parts

-- `apply_root`.
def applyRoot (root logicalPath : HostPath N) : HostPath N :=
  if root.isEmpty then logicalPath
  else if logicalPath.isEmpty then root
  else root ++ logicalPath

-- `symlink_target_path`.
def symlinkTargetPath (linkPath : HostPath N) (target : PathText N) : HostPath N :=
  if target.absolute then normalize [] target.parts
  else normalize (parentPath linkPath) target.parts

-- `path_is_under_or_same` of `syscall/fs.rs`.
def pathIsUnderOrSame [DecidableEq N] (path base : HostPath N) : Bool :=
  path = base || (!base.isEmpty && base.isPrefixOf path)

theorem applyRoot_eq (root logicalPath : HostPath N) : applyRoot root logicalPath = root ++ logicalPath := by
  cases root <;> cases logicalPath <;> simp [applyRoot]

theorem normalize_names (path : HostPath N) (names : List N) :
    normalize path (names.map .name) = path ++ names := by
  induction names generalizing path
  case nil => simp [normalize]
  case cons n names hi => simpa [normalize, Part.push] using hi (path ++ [n])

end WllOs.Fs

namespace WllOs.Fs

-- The bytes of a string. The characters that the paths are split at are ASCII characters, and other characters do not
-- have them among their bytes.
abbrev Text := List UInt8

namespace Text

def slash : UInt8 := 0x2f
def dot : UInt8 := 0x2e

def isAbsolute (path : Text) : Bool :=
  path.head? = some slash

-- The arms of the match in `normalize_path`.
def toPart (part : Text) : Part Text :=
  if part = [] then .empty
  else if part = [dot] then .dot
  else if part = [dot, dot] then .dotdot
  else .name part

def parts (path : Text) : List (Part Text) :=
  (path.splitOn slash).map toPart

-- The components that the loop of `normalize_path` leaves.
def names (path : Text) : HostPath Text :=
  normalize [] path.parts

-- `parts.join("/")`
def join (names : List Text) : Text :=
  [slash].intercalate names

-- What `path_is_already_normalized` looks for in the bytes behind a slash.
def looksAhead : List UInt8 → Bool
  | [] => false
  | byte :: rest =>
    if byte = slash then
      true
    else if byte = dot then
      match rest with
      | [] => true
      | afterDot :: rest =>
        if afterDot = slash then
          true
        else if afterDot = dot then
          match rest with
          | []               => true
          | afterDotdot :: _ => afterDotdot = slash
        else
          false
    else
      false

-- The loop of `path_is_already_normalized` over the bytes from an index on.
def scan : List UInt8 → Bool
  | [] => true
  | byte :: rest => if byte = slash && looksAhead rest then false else scan rest

def pathIsAlreadyNormalized (path : Text) : Bool :=
  if path = [] || path = [dot] || path = [dot, dot] then
    false
  else if path.length > 1 && path.getLast? = some slash then
    false
  else if [dot, slash].isPrefixOf path || [dot, dot, slash].isPrefixOf path then
    false
  else
    scan path

-- The part of `normalize_path` that goes through the components.
def normalizeParts (path : Text) : Text :=
  let normalized := (if path.isAbsolute then [slash] else []) ++ join path.names
  if normalized = [] then
    [dot]
  else if normalized.length > 1 && normalized.getLast? = some slash then
    normalized.rdropWhile (· = slash)
  else
    normalized

def normalizePath (path : Text) : Text :=
  if path.pathIsAlreadyNormalized then path else path.normalizeParts

def resolvePath (cwd path : Text) : Text :=
  if path.isAbsolute then normalizePath path
  else if cwd = [slash] then normalizePath ([slash] ++ path)
  else normalizePath (cwd ++ [slash] ++ path)

def applyRoot (root logicalPath : Text) : Text :=
  let logicalPath := normalizePath logicalPath
  if root = [slash] then
    logicalPath
  else
    let root := normalizePath root
    if root = [slash] then logicalPath
    else if logicalPath = [slash] then root
    else normalizePath (root ++ [slash] ++ logicalPath.dropWhile (· = slash))

-- An absolute path without empty components, dots and a slash at its end.
structure IsNormal (path : Text) : Prop where
  absolute   : path.isAbsolute
  components : path ≠ [slash] → ∀ part ∈ path.tail.splitOn slash, part ≠ [] ∧ part ≠ [dot] ∧ part ≠ [dot, dot]
  trailing   : path ≠ [slash] → path.getLast? ≠ some slash

-- The path is not the one of the directory, and it leads through the directory.
structure StrictlyBeneath (base path : Text) : Prop where
  normal : path.IsNormal
  inside : (if base = [slash] then base else base ++ [slash]) <+: path
  strict : path ≠ base

-- The text of a path with the given components.
def render (absolute : Bool) (names : List Text) : Text :=
  if absolute then slash :: join names
  else if names = [] then [dot]
  else join names

-- A string that stands for a component.
structure IsName (name : Text) : Prop where
  part  : toPart name = .name name
  slash : slash ∉ name

end Text

end WllOs.Fs
