import WllOs.Fs.Path
import WllOs.Library.Rekey

namespace WllOs.Fs

inductive MemSpecialKind
  | fifo
  | socket
  | charDevice (major minor : Nat)
  | blockDevice (major minor : Nat)
  deriving DecidableEq

structure MemNodeMetadata where
  mode : Nat
  uid : Nat
  gid : Nat
  ino : Nat
  flags : Nat
  deriving DecidableEq

def MemNodeMetadata.new (mode : Nat) : MemNodeMetadata where
  mode := mode &&& 0o7777
  uid := 0
  gid := 0
  ino := 0
  flags := 0

-- The names of a tree, and tables of them. The texts of paths have been normalised.
abbrev MemPath := HostPath String

abbrev PathMap (α : Type) := Rekey.Map MemPath α

abbrev PathSet := PathMap Unit

-- A name of a file. The names of one file share its backing.
structure MemFileName where
  name : MemPath
  backing : Nat
  linkKey : MemPath
  deriving DecidableEq

-- Attributes of extended kinds are found under the number of a node, and not moved.
structure MemFileSystem where
  files : List MemFileName
  fileNames : PathSet
  dirs : PathSet
  symlinks : PathMap String
  specials : PathMap MemSpecialKind
  metadata : PathMap MemNodeMetadata
  nextIno : Nat

namespace MemFileSystem

-- The path of the root starts each other path, but its text ends with the slash that is looked for behind it.
def isDescendant (parent child : MemPath) : Bool :=
  parent ≠ [] && parent.isPrefixOf child && parent ≠ child

-- What a path becomes when the start of it is renamed.
def renamed (old new path : MemPath) : MemPath :=
  new ++ path.drop old.length

variable (fs : MemFileSystem)

def allocateMetadata (metadata : MemNodeMetadata) : MemNodeMetadata × MemFileSystem :=
  if metadata.ino = 0 then
    ({ metadata with ino := fs.nextIno }, { fs with nextIno := max (Usize.saturatingAdd fs.nextIno 1) 2 })
  else (metadata, fs)

def metadataOrAlloc (name : MemPath) (mode : Nat) : MemNodeMetadata × MemFileSystem :=
  match fs.metadata.lookup name with
  | some metadata => (metadata, fs)
  | none          =>
    let (metadata, fs) := fs.allocateMetadata (.new mode)
    (metadata, { fs with metadata := fs.metadata.insert name metadata })

def «exists» (name : MemPath) : Bool :=
  name ∈ fs.fileNames || name ∈ fs.dirs || name ∈ fs.symlinks || name ∈ fs.specials

def isDir (name : MemPath) : Bool :=
  name ∈ fs.dirs

def dirHasEntries (name : MemPath) : Bool :=
  fs.files.any (fun file => isDescendant name file.name) || fs.symlinks.keys.any (isDescendant name) ||
    fs.specials.keys.any (isDescendant name) || fs.dirs.keys.any (isDescendant name)

def rebuildFileNames : MemFileSystem :=
  { fs with fileNames := fs.files.foldl (fun names file => names.insert file.name ()) ∅ }

-- The changes of the keys that `rename_path` collects: with `old` itself, and without it.
def treeTarget (old new path : MemPath) : Option MemPath :=
  if path = old ∨ isDescendant old path then some (renamed old new path) else none

def belowTarget (old new path : MemPath) : Option MemPath :=
  if isDescendant old path then some (renamed old new path) else none

-- The part of `rename_path` that moves a directory.
def renameTree (old new : MemPath) : MemFileSystem :=
  let fs := { fs with
    dirs := Rekey.rekey (treeTarget old new) fs.dirs
    files := fs.files.map fun file : MemFileName =>
      if isDescendant old file.name then { file with name := renamed old new file.name } else file }.rebuildFileNames
  { fs with
    specials := Rekey.rekey (belowTarget old new) fs.specials
    symlinks := Rekey.rekey (belowTarget old new) fs.symlinks
    metadata := Rekey.rekey (treeTarget old new) fs.metadata }

def moveMetadata (old new : MemPath) (metadata : MemNodeMetadata) : MemFileSystem :=
  { fs with metadata := (fs.metadata.erase old).insert new metadata }

def renameDir (old new : MemPath) : Except SysErrNo Unit × MemFileSystem :=
  if new = [] then (.error .EEXIST, fs)
  else if fs.isDir new then
    if fs.dirHasEntries new then (.error .ENOTEMPTY, fs)
    else (.ok (), { fs with dirs := fs.dirs.erase new, metadata := fs.metadata.erase new }.renameTree old new)
  else if fs.exists new then (.error .ENOTDIR, fs)
  else (.ok (), fs.renameTree old new)

def renameSpecial (old new : MemPath) (kind : MemSpecialKind) : Except SysErrNo Unit × MemFileSystem :=
  let fs := { fs with specials := fs.specials.erase old }
  if fs.isDir new then (.error .EISDIR, { fs with specials := fs.specials.insert old kind })
  else
    let fs := { fs with
      files := fs.files.filter fun file : MemFileName => file.name ≠ new
      fileNames := fs.fileNames.erase new
      symlinks := fs.symlinks.erase new
      specials := fs.specials.erase new }
    let (metadata, fs) := fs.metadataOrAlloc old 0o666
    (.ok (), { fs with specials := fs.specials.insert new kind }.moveMetadata old new metadata)

-- A special node that has the new name stays.
def renameSymlink (old new : MemPath) (target : String) : Except SysErrNo Unit × MemFileSystem :=
  let fs := { fs with symlinks := fs.symlinks.erase old }
  if fs.isDir new then (.error .EISDIR, { fs with symlinks := fs.symlinks.insert old target })
  else
    let fs := { fs with
      files := fs.files.filter fun file : MemFileName => file.name ≠ new
      fileNames := fs.fileNames.erase new
      symlinks := fs.symlinks.erase new }
    let (metadata, fs) := fs.metadataOrAlloc old 0o777
    (.ok (), { fs with symlinks := fs.symlinks.insert new target }.moveMetadata old new metadata)

def renameFile (old new : MemPath) : Except SysErrNo Unit × MemFileSystem :=
  match fs.files.find? (·.name = old) with
  | none      => (.error .ENOENT, fs)
  | some file =>
    if fs.isDir new then (.error .EISDIR, fs)
    else
      let (metadata, fs) := fs.metadataOrAlloc old 0o666
      let fs := { fs with
        files := fs.files.filter (fun file : MemFileName => file.name ≠ old ∧ file.name ≠ new) ++ [{ file with name := new }]
        fileNames := ((fs.fileNames.erase old).erase new).insert new ()
        symlinks := fs.symlinks.erase new
        specials := fs.specials.erase new }
      (.ok (), fs.moveMetadata old new metadata)

def renameNonDir (old new : MemPath) : Except SysErrNo Unit × MemFileSystem :=
  match fs.specials.lookup old with
  | some kind => fs.renameSpecial old new kind
  | none      =>
    match fs.symlinks.lookup old with
    | some target => fs.renameSymlink old new target
    | none        => fs.renameFile old new

def renamePath (old new : MemPath) : Except SysErrNo Unit × MemFileSystem :=
  if old = new then (.ok (), fs)
  else if old = [] ∨ isDescendant old new then (.error .EINVAL, fs)
  else if ¬fs.isDir (parentPath new) then (.error .ENOENT, fs)
  else if fs.isDir old then fs.renameDir old new
  else fs.renameNonDir old new

-- A name beside the old one that is not in use.
def exchangeName (old : MemPath) : Option MemPath :=
  ((List.range 32).map fun attempt => parentPath old ++ [".wll_rename_exchange_" ++ toString attempt]).find?
    fun temp => ¬fs.exists temp

def exchangePath (old new : MemPath) : Except SysErrNo Unit × MemFileSystem :=
  if old = new then (.ok (), fs)
  else if old = [] ∨ new = [] then (.error .EINVAL, fs)
  else if ¬fs.exists old ∨ ¬fs.exists new then (.error .ENOENT, fs)
  else if fs.isDir old ∧ isDescendant old new then (.error .EINVAL, fs)
  else if fs.isDir new ∧ isDescendant new old then (.error .EINVAL, fs)
  else
    match fs.exchangeName old with
    | none      => (.error .EEXIST, fs)
    | some temp =>
      match fs.renamePath old temp with
      | (.error err, fs) => (.error err, fs)
      | (.ok (), fs)     =>
        match fs.renamePath new old with
        | (.error err, fs) => (.error err, (fs.renamePath temp old).snd)
        | (.ok (), fs)     => fs.renamePath temp new

-- What a path leads to.
inductive Node
  | directory
  | file (backing : Nat) (linkKey : MemPath)
  | symlink (target : String)
  | special (kind : MemSpecialKind)

def Has (path : MemPath) : Node → Prop
  | .directory            => path ∈ fs.dirs
  | .file backing linkKey => ⟨path, backing, linkKey⟩ ∈ fs.files
  | .symlink target       => fs.symlinks.lookup path = some target
  | .special kind         => fs.specials.lookup path = some kind

-- Each name is that of one object, objects are in directories, and they have metadata.
structure WellFormed : Prop where
  names : ∀ path, path ∈ fs.fileNames ↔ ∃ file ∈ fs.files, file.name = path
  nodup : (fs.files.map MemFileName.name).Nodup
  root : fs.Has [] .directory
  one : ∀ path node node', fs.Has path node → fs.Has path node' → node = node'
  parent : ∀ path node, fs.Has path node → path ≠ [] → fs.Has (parentPath path) .directory
  metadata : ∀ path, path ∈ fs.metadata ↔ ∃ node, fs.Has path node

-- A tree that has at each path what another has at the source of the path.
structure Via (source : MemPath → Option MemPath) (fs' : MemFileSystem) : Prop where
  has : ∀ path node, fs'.Has path node ↔ ∃ origin, source path = some origin ∧ fs.Has origin node
  metadata : ∀ path, fs'.metadata.lookup path = (source path).bind fs.metadata.lookup

-- The tree is as it was.
def Unchanged (fs' : MemFileSystem) : Prop :=
  fs.Via some fs'

-- Where what a path leads to has been, when all at one path and beneath it has been moved.
def movedFrom (old new path : MemPath) : Option MemPath :=
  if new <+: path then some (renamed new old path) else if old <+: path then none else some path

def swappedFrom (old new path : MemPath) : Option MemPath :=
  some (if new <+: path then renamed new old path else if old <+: path then renamed old new path else path)

def Moved (old new : MemPath) (fs' : MemFileSystem) : Prop :=
  fs.Via (movedFrom old new) fs'

def Swapped (old new : MemPath) (fs' : MemFileSystem) : Prop :=
  fs.Via (swappedFrom old new) fs'

-- Two names of one file have the same number.
def SameFile (old new : MemPath) : Prop :=
  ¬fs.Has old .directory ∧ ¬fs.Has new .directory ∧ (∃ node, fs.Has old node) ∧ (∃ node, fs.Has new node) ∧
    (fs.metadata.lookup old).map (·.ino) = (fs.metadata.lookup new).map (·.ino)

-- What is at the new path may make room for what is at the old one.
structure Replaceable (old new : MemPath) : Prop where
  kind : ∀ node, fs.Has new node → (fs.Has old .directory ↔ fs.Has new .directory)
  empty : ∀ path node, new <+: path → path ≠ new → ¬fs.Has path node

-- Where `rename_path` does otherwise: it removes a name that it should leave, or it leaves a special node.
def Misses (old new : MemPath) : Prop :=
  old ≠ new ∧ (fs.SameFile old new ∨
    (∃ target, fs.Has old (.symlink target)) ∧ ∃ kind, fs.Has new (.special kind))

def RenameExact (old new : MemPath) : Except SysErrNo Unit × MemFileSystem → Prop
  | (.error _, fs') => fs.Unchanged fs'
  | (.ok (), fs')   =>
    if old = new then fs.Unchanged fs'
    else
      (fs.SameFile old new → fs.Unchanged fs') ∧
      (¬fs.SameFile old new → (∃ node, fs.Has old node) ∧ fs.Replaceable old new ∧ fs.Moved old new fs')

def ExchangeExact (old new : MemPath) : Except SysErrNo Unit × MemFileSystem → Prop
  | (.error _, fs') => fs.Unchanged fs'
  | (.ok (), fs')   => fs.Swapped old new fs'

end MemFileSystem

end WllOs.Fs
