import WllOs.Fs.Access
import WllOs.Fs.MemFileSystem
import WllOs.Fs.VfsCalls

namespace WllOs.Fs

inductive NodeKind
  | regular
  | directory
  | symlink
  | other
  deriving DecidableEq

def Node.kind {N : Type} : Node N → NodeKind
  | regular _   => .regular
  | directory _ => .directory
  | symlink ..  => .symlink
  | other _     => .other

-- What `metadata` says about an object besides its node, apart from times and numbers of links, and what it contains.
structure NodeData where
  rdev    : Nat × Nat
  size    : Nat
  blocks  : Nat
  flags   : Nat
  content : List UInt8
  deriving DecidableEq

namespace NodeData

-- A new object in memory, and each directory there.
def empty : NodeData where
  rdev    := (0, 0)
  size    := 0
  blocks  := 0
  flags   := 0
  content := []

def special : MemSpecialKind → NodeData
  | .charDevice major minor | .blockDevice major minor => { empty with rdev := (major, minor) }
  | _                                                  => empty

end NodeData

-- What the current task and the allocators of the two file systems give to new nodes. The volume may have no room.
structure Creator where
  credentials : Credentials
  memIno      : HostPath String → Nat
  ext4Ino     : HostPath String → Except SysErrNo Nat
  ext4Data    : NodeData

namespace Creator

variable (creator : Creator)

-- `MemNodeMetadata::new_child_for_current`, below a directory with or without the bit that hands on its group.
def newChildForCurrent (parent : Metadata) (mode : BitVec 32) (isDir : Bool) (ino : Nat) : Metadata :=
  let parentSetgid := parent.mode &&& 0o2000 ≠ 0
  let childMode := mode &&& 0o7777
  let childMode :=
    if isDir then if parentSetgid then childMode ||| 0o2000 else childMode
    else if parentSetgid && childMode &&& 0o2000 ≠ 0 && !creator.credentials.isRootCapable &&
      !CredentialIdentity.filesystem.isInGroup creator.credentials parent.gid then childMode &&& ~~~0o2000
    else childMode
  ⟨ino, childMode, creator.credentials.uids.fs, if parentSetgid then parent.gid else creator.credentials.gids.fs⟩

-- `new_child_ids_and_mode` of `ext4_vol.rs`.
def newChildIdsAndMode (parent : Metadata) (mode : BitVec 32) (isDir : Bool) (ino : Nat) : Metadata :=
  let parentSetgid := parent.mode &&& 0o2000 ≠ 0
  let perm := mode &&& 0o7777
  ⟨ino, if isDir && parentSetgid then perm ||| 0o2000 else perm, creator.credentials.uids.fs,
    if parentSetgid then parent.gid else creator.credentials.gids.fs⟩

end Creator

-- The data of the nodes, and the directories of the vfat volumes.
structure NodeTree (V : Type) extends Vfs V where
  memData    : HostPath String → NodeData
  ext4Data   : HostPath String → NodeData
  volumeData : V → HostPath String → NodeData
  volumeList : V → HostPath String → Except SysErrNo (String → Option Bool)

namespace NodeTree

variable {V : Type} (creator : Creator) (grants : Grants) (tree : NodeTree V)

section Memory

def putMem (path : HostPath String) (node : Node String) (data : NodeData) : NodeTree V :=
  { tree with
    mem     := fun p => if p = path then some node else tree.mem p
    memData := fun p => if p = path then data else tree.memData p }

-- What a path in memory is when `ensure_parent_dirs` has added a directory there. A node that is no directory is
-- not seen any more, and its attributes are the directory's.
def ensured (path : HostPath String) : Node String × NodeData :=
  match tree.mem path with
  | some (.directory metadata) => (.directory metadata, tree.memData path)
  | some node                  =>
    (.directory node.metadata, { NodeData.empty with flags := (tree.memData path).flags })
  | none                       => (.directory ⟨creator.memIno path, 0o755, 0, 0⟩, .empty)

-- It stops at the first component that is equal to the last one.
def isEnsured (path parent : HostPath String) : Bool :=
  parent ≠ [] && parent.isPrefixOf (Vfs.ensuredParents path)

def ensureParentDirs (path : HostPath String) : NodeTree V :=
  { tree with
    mem     := fun p => if isEnsured path p then some (tree.ensured creator p).fst else tree.mem p
    memData := fun p => if isEnsured path p then (tree.ensured creator p).snd else tree.memData p }

def childMetadataForCurrent (path : HostPath String) (mode : BitVec 32) (isDir : Bool) : Metadata :=
  let parent := ((tree.mem (parentPath path)).map Node.metadata).getD ⟨0, 0, 0, 0⟩
  creator.newChildForCurrent parent mode isDir (creator.memIno path)

def addDirWithMode (path : HostPath String) (mode : BitVec 32) : NodeTree V :=
  let tree := tree.ensureParentDirs creator path
  match tree.mem path with
  | some (.directory metadata) =>
    tree.putMem path (.directory { metadata with mode := mode &&& 0o7777 }) (tree.memData path)
  | _                          =>
    tree.putMem path (.directory (tree.childMetadataForCurrent creator path mode true)) .empty

-- A directory of the same name hides the file.
def addFileWithMode (path : HostPath String) (mode : BitVec 32) : NodeTree V :=
  let tree := tree.ensureParentDirs creator path
  let metadata := tree.childMetadataForCurrent creator path mode false
  tree.putMem path (if tree.memIsDir path then .directory metadata else .regular metadata) .empty

def addSpecialWithMode (path : HostPath String) (kind : MemSpecialKind) (mode : BitVec 32) :
    Except SysErrNo Unit × NodeTree V :=
  if !tree.memIsDir (parentPath path) then (.error .ENOENT, tree)
  else if tree.memExists path then (.error .EEXIST, tree)
  else (.ok (), tree.putMem path (.other (tree.childMetadataForCurrent creator path mode false)) (.special kind))

def addOverlaySpecialWithMode (path : HostPath String) (kind : MemSpecialKind) (mode : BitVec 32) :
    Except SysErrNo Unit × NodeTree V :=
  (tree.ensureParentDirs creator path).addSpecialWithMode creator path kind mode

end Memory

def putExt4 (path : HostPath String) (node : Node String) (data : NodeData) : NodeTree V :=
  { tree with
    disk     := fun p => if p = path then some node else tree.disk p
    ext4Data := fun p => if p = path then data else tree.ext4Data p }

-- `mkdir_ext4_with_mode` and `create_regular_ext4_with_mode`.
def createExt4 (path : HostPath String) (node : Metadata → Node String) (mode : BitVec 32) (isDir : Bool) :
    Except SysErrNo Unit × NodeTree V :=
  if path.isEmpty then (.error .EINVAL, tree)
  else
    match tree.disk (parentPath path) with
    | none                     => (.error .ENOENT, tree)
    | some (.directory parent) =>
      if (tree.disk path).isSome then (.error .EEXIST, tree)
      else
        match creator.ext4Ino path with
        | .error e => (.error e, tree)
        | .ok ino  =>
          (.ok (), tree.putExt4 path (node (creator.newChildIdsAndMode parent mode isDir ino)) creator.ext4Data)
    | some _                   => (.error .ENOTDIR, tree)

def clearWhiteout (path : HostPath String) : NodeTree V :=
  { tree with removed := fun p => tree.removed p && p ≠ path }

-- What `create_dir_with_mode`, `create_regular_file` and `create_special_node` share. The checks and the choice of the
-- file system are those of `Vfs.create`.
def createNew (path : HostPath String) (memory ext4 : NodeTree V → Except SysErrNo Unit × NodeTree V)
    (missing : SysErrNo) : Except SysErrNo Unit × NodeTree V :=
  if tree.fileExists path || tree.dirExists path then (.error .EEXIST, tree)
  else
    let tree := tree.clearWhiteout path
    match tree.toVfs.create grants path (.ext4 path) missing with
    | .error e           => (.error e, tree)
    | .ok [⟨_, .ext4 _⟩] => ext4 tree
    | .ok _              => memory tree

def createDirWithMode (path : HostPath String) (mode : BitVec 32) : Except SysErrNo Unit × NodeTree V :=
  tree.createNew grants path (fun tree => (.ok (), tree.addDirWithMode creator path mode))
    (·.createExt4 creator path .directory mode true) .ENOENT

def createRegularFile (path : HostPath String) (mode : BitVec 32) : Except SysErrNo Unit × NodeTree V :=
  tree.createNew grants path (fun tree => (.ok (), tree.addFileWithMode creator path mode))
    (·.createExt4 creator path .regular mode false) .ENOENT

def createSpecialNode (path : HostPath String) (kind : MemSpecialKind) (mode : BitVec 32) :
    Except SysErrNo Unit × NodeTree V :=
  tree.createNew grants path (·.addSpecialWithMode creator path kind mode)
    (·.addOverlaySpecialWithMode creator path kind mode)
    (if tree.pathExistsNonDir (parentPath path) then .ENOTDIR else .ENOENT)

-- When `open_path` comes to its last part, at which it may create a file.
def opensNothing (path : HostPath String) : Bool :=
  let mountedExt4 := !tree.isTmpfsPath path && (tree.mountedExt4BackendPath path).isSome
  let memNode := if mountedExt4 then none else tree.mem path
  let extNode := if tree.isTmpfsPath path then none else tree.disk (tree.ext4LookupPath path)
  match memNode with
  | some (.regular _) | some (.other _) | some (.directory _) => false
  | _ => !extNode.any Node.isDirectory && (tree.removed path || !extNode.any (·.kind = .regular))

def openCreate (path : HostPath String) (mode : BitVec 32) : Except SysErrNo Unit × NodeTree V :=
  match tree.toVfs.openCreate grants path with
  | .error e              => (.error e, tree)
  | .ok [⟨_, .ext4 disk⟩] =>
    match tree.createExt4 creator disk .regular mode false with
    | (.error e, tree) => (.error e, tree)
    | (.ok (), tree)   => (.ok (), tree.clearWhiteout path)
  | .ok _                 => (.ok (), (tree.addFileWithMode creator path mode).clearWhiteout path)

-- `open_path` with `O_CREAT`, as far as it creates a file; its checks are those of `Vfs.openPath`.
def openPath (path : HostPath String) (flags : OpenFlags) (mode : BitVec 32) :
    Except SysErrNo (Option (HostPath String)) × NodeTree V :=
  match tree.toVfs.openPath grants path flags, tree.openNorm path flags with
  | .error e, _     => (.error e, tree)
  | .ok _, .error e => (.error e, tree)
  | .ok _, .ok norm =>
    if flags.create && !flags.pathOnly && !tree.loopDevice norm && tree.opensNothing norm then
      match tree.openCreate creator grants norm mode with
      | (.error e, tree) => (.error e, tree)
      | (.ok (), tree)   => (.ok (some norm), tree)
    else (.ok none, tree)

end NodeTree

-- The calls that create one node. A socket is bound to a path as `mknod` creates it.
inductive Creation
  | mkdir (path : HostPath String) (mode : BitVec 32)
  | mknod (path : HostPath String) (kind : Option MemSpecialKind) (mode : BitVec 32)
  | «open» (path : HostPath String) (flags : OpenFlags) (mode : BitVec 32)

namespace Creation

def kind : Creation → NodeKind
  | mkdir ..            => .directory
  | mknod _ none _      => .regular
  | mknod _ (some _) _  => .other
  | .open ..            => .regular

end Creation

namespace NodeTree

variable {V : Type} (creator : Creator) (grants : Grants) (tree : NodeTree V)

-- The result says at which path a node has been created.
def create : Creation → Except SysErrNo (Option (HostPath String)) × NodeTree V
  | .mkdir path mode             =>
    match tree.resolveParentSymlinksForLookup path with
    | .error e => (.error e, tree)
    | .ok norm =>
      let (result, tree) := tree.createDirWithMode creator grants norm mode
      (result.map fun _ => some norm, tree)
  | .mknod path none mode        =>
    let (result, tree) := tree.createRegularFile creator grants path mode
    (result.map fun _ => some path, tree)
  | .mknod path (some kind) mode =>
    let (result, tree) := tree.createSpecialNode creator grants path kind mode
    (result.map fun _ => some path, tree)
  | .open path flags mode        => tree.openPath creator grants path flags mode

-- Whether `metadata` and `list_dir` look into memory.
def consultsMem (path : HostPath String) : Bool :=
  tree.isTmpfsPath path || (tree.mountedExt4BackendPath path).isNone

-- The object that `metadata(path, false)` describes, and where it is.
def found (path : HostPath String) : Option (Place V × Node String) :=
  if tree.removed path then none
  else
    match tree.mountedVfatBackend path with
    | some (volume, backend) => (tree.volume volume backend).toOption.map (.vfat volume backend, ·)
    | none                   =>
      match if tree.consultsMem path then tree.mem path else none with
      | some node => some (.memory path, node)
      | none      =>
        if tree.isTmpfsPath path then none
        else (tree.disk (tree.ext4LookupPath path)).map (.ext4 (tree.ext4LookupPath path), ·)

def dataAt : Place V → NodeData
  | .memory path      => tree.memData path
  | .ext4 path        => tree.ext4Data path
  | .vfat volume path => tree.volumeData volume path

-- All that is reported about a path.
def seen (path : HostPath String) : Option (Node String × NodeData) :=
  (tree.found path).map fun (place, node) => (node, tree.dataAt place)

def IsDirectory (path : HostPath String) : Prop :=
  ∃ place metadata, tree.found path = some (place, .directory metadata)

-- The entries of a directory, and which of them are directories.
def listDir (path : HostPath String) : Except SysErrNo (String → Option Bool) :=
  match tree.mountedVfatBackend path with
  | some (volume, backend) => tree.volumeList volume backend
  | none                   =>
    let extPath := tree.ext4LookupPath path
    let memDir := tree.consultsMem path && tree.memIsDir path
    let extDir := !tree.isTmpfsPath path && tree.ext4DirExists extPath
    if !memDir && !extDir then
      if (tree.mem path).any (·.kind = .regular) then .error .ENOTDIR
      else if (tree.disk extPath).any fun node => node.kind = .regular || node.kind = .symlink then .error .ENOTDIR
      else .error .ENOENT
    else .ok fun name =>
      let entry := if memDir then (tree.mem (path ++ [name])).map Node.isDirectory else none
      entry.or (if extDir && !tree.removed (extPath ++ [name]) then
          (tree.disk (extPath ++ [name])).map Node.isDirectory
        else none)

def lists (path : HostPath String) (name : String) : Option Bool :=
  (tree.listDir path).toOption.bind (· name)

-- Each file system has a tree of directories, and nothing is mounted over the root.
structure Closed : Prop where
  root   : tree.memIsDir []
  mem    : ∀ path name, tree.mem (path ++ [name]) ≠ none → tree.memIsDir path
  disk   : ∀ path name, tree.disk (path ++ [name]) ≠ none → tree.ext4DirExists path
  mounts : ∀ entry ∈ tree.mounts, entry.hostTarget = [] → entry.backend = .root

-- One node has been created, and nothing else has become of any path.
structure NodeAdded (path : HostPath String) (place : Place V) (kind : NodeKind) (tree' : NodeTree V) : Prop where
  new       : tree.found path = none
  found     : ∃ node, tree'.found path = some (place, node) ∧ node.kind = kind
  listed    : ∀ directory name, path = directory ++ [name] → tree'.lists directory name ≠ none
  ancestors : ∀ ancestor, ancestor <+: path → ancestor ≠ path → tree'.IsDirectory ancestor
  others    : ∀ other, other ≠ path → tree'.seen other = tree.seen other
  lists     : ∀ other name, other ≠ path → other ++ [name] ≠ path → tree.IsDirectory other →
    tree'.lists other name = tree.lists other name

-- The file system that a call chooses. Nodes of other kinds than files and directories are put into memory always.
def place : Creation → HostPath String → Place V
  | .open .., path                =>
    let parent := parentPath path
    let parentMountedExt4 := !tree.isTmpfsPath parent && (tree.mountedExt4BackendPath parent).isSome
    let extParent := !tree.isTmpfsPath parent && tree.ext4DirExists (tree.ext4LookupPath parent)
    if !parentMountedExt4 && tree.memIsDir parent && (isMemfsVolatileDir parent || !extParent) then .memory path
    else .ext4 (tree.ext4LookupPath path)
  | .mknod _ (some _) _, path     => .memory path
  | _, path                       =>
    let parent := parentPath path
    let extParent := !tree.isTmpfsPath parent && tree.ext4DirExists parent
    if tree.memIsDir parent && (isMemfsVolatileDir parent || !extParent) then .memory path else .ext4 path

-- `metadata` asks the ext4 volume for a path of its own.
def Reads (path disk : HostPath String) : Prop :=
  tree.mountedVfatBackend path = none ∧ tree.isTmpfsPath path = false ∧ tree.ext4LookupPath path = disk ∧
    (tree.consultsMem path → tree.mem path = none)

-- The entry of a directory that `list_dir` takes from the ext4 volume.
def ReadsEntry (path : HostPath String) (name : String) (disk : HostPath String) : Prop :=
  tree.mountedVfatBackend path = none ∧ tree.isTmpfsPath path = false ∧ tree.ext4LookupPath path ++ [name] = disk ∧
    ¬(tree.consultsMem path ∧ tree.mem (path ++ [name]) ≠ none)

-- The paths of the ext4 volume that directories list from now on: those of which the whiteout has been cleared, and
-- the new one.
def Uncovered (path disk : HostPath String) : Place V → Prop
  | .ext4 new => disk = new ∧ (tree.removed disk → disk = path) ∨
    disk = path ∧ tree.removed disk ∧ tree.disk disk ≠ none
  | _         => disk = path ∧ tree.removed disk ∧ tree.disk disk ≠ none

-- A path finds what is put at a place.
def LeadsTo (path : HostPath String) : Place V → Prop
  | .memory _ => tree.mountedVfatBackend path = none ∧ tree.consultsMem path
  | .ext4 new => tree.Reads path new
  | .vfat ..  => False

def EntryShown (path directory : HostPath String) (name : String) : Place V → Prop
  | .memory _ => tree.consultsMem directory ∨
    tree.disk (tree.ext4LookupPath directory ++ [name]) ≠ none ∧
      (tree.removed (tree.ext4LookupPath directory ++ [name]) → tree.ext4LookupPath directory ++ [name] = path)
  | .ext4 new => tree.removed new → new = path
  | .vfat ..  => False

-- When a call that creates a node at a path does just this.
structure Creates (path : HostPath String) (place : Place V) (kind : NodeKind) : Prop where
  new       : tree.found path = none
  leads     : tree.LeadsTo path place
  -- no directory that has been removed is in the way of a file
  kept      : place = .memory path → kind = .regular → ¬tree.memIsDir path
  shown     : ∀ directory name, path = directory ++ [name] → tree.EntryShown path directory name place
  ancestors : ∀ ancestor, ancestor <+: path → ancestor ≠ path → tree.IsDirectory ancestor
  -- no other path leads to the same place
  alone     : ∀ other disk, other ≠ path → place = .ext4 disk → tree.removed other = false → ¬tree.Reads other disk
  entries   : ∀ other name disk, other ≠ path → other ++ [name] ≠ path → tree.IsDirectory other →
    tree.ReadsEntry other name disk → ¬tree.Uncovered path disk place
  -- the directories that memory is given are those of the volume
  parents   : place = .memory path → ∀ ancestor, isEnsured path ancestor → ¬tree.memIsDir ancestor →
    tree.consultsMem ancestor →
    (tree.disk ancestor).map (·, tree.ext4Data ancestor) = some (tree.ensured creator ancestor)
  entered   : place = .memory path → ∀ ancestor, isEnsured path ancestor → ¬tree.memIsDir ancestor →
    tree.consultsMem (parentPath ancestor) →
    tree.mem ancestor = none ∧ tree.removed ancestor = false ∧ tree.ext4DirExists ancestor

end NodeTree

end WllOs.Fs
