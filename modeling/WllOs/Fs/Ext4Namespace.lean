import WllOs.Fs.Path
import WllOs.Library.Fallible

namespace WllOs.Fs

open Faults Program

inductive Ext4NodeKind
  | regular
  | directory
  | symlink
  | other
  deriving DecidableEq

-- The entries of a directory are in the order of its blocks, with `.` and `..`.
structure Ext4Inode where
  kind : Ext4NodeKind
  linksCount : Nat
  entries : List (String × Nat)
  data : List UInt8

namespace Ext4Inode

def new (kind : Ext4NodeKind) : Ext4Inode :=
  ⟨kind, 0, [], []⟩

-- A directory has a block as soon as it has an entry.
def isEmpty (inode : Ext4Inode) : Bool :=
  inode.entries.isEmpty && inode.data.isEmpty

end Ext4Inode

abbrev Ext4Inodes := Nat → Ext4Inode

namespace Ext4Inodes

variable (inodes : Ext4Inodes)

def addEntry (parent : Nat) (name : String) (child : Nat) : Ext4Inodes :=
  Function.update inodes parent { inodes parent with entries := (inodes parent).entries ++ [(name, child)] }

def removeEntry (parent : Nat) (name : String) : Ext4Inodes :=
  Function.update inodes parent { inodes parent with entries := (inodes parent).entries.eraseP (·.fst = name) }

def setLinksCount (ino links : Nat) : Ext4Inodes :=
  Function.update inodes ino { inodes ino with linksCount := links }

def truncate (ino : Nat) : Ext4Inodes :=
  Function.update inodes ino { inodes ino with entries := [], data := [] }

def setData (ino : Nat) (data : List UInt8) : Ext4Inodes :=
  Function.update inodes ino { inodes ino with data }

end Ext4Inodes

def ROOT_INODE : Nat := 2

-- The volume with what is cached of it: the regular files that are in memory, and the names. An operation looks up the
-- names that it changes before it changes them, so it finds them as they were when the caches were last invalidated.
structure Ext4Namespace where
  inodes : Ext4Inodes
  inodesCount : Nat
  freeInodes : List Nat
  seen : Nat → List (String × Nat)
  regularCache : Nat → Option (List UInt8)
  openRegularRefs : Nat → Nat
  pendingUnlink : List Nat

-- The components that `normalize_path` leaves of those of an absolute path.
def normalizePath (path : List String) : HostPath String :=
  path.foldl (fun parts part =>
    if part = "" ∨ part = "." then parts else if part = ".." then parts.dropLast else parts ++ [part]) []

def splitParentName (path : HostPath String) : Except SysErrNo (HostPath String × String) :=
  match path.getLast? with
  | none      => .error .EINVAL
  | some name => .ok (path.dropLast, name)

def pathIsDescendant (parent child : HostPath String) : Bool :=
  parent.isPrefixOf child && parent ≠ child

namespace Ext4Namespace

variable (fs : Ext4Namespace)

-- A later entry takes the place of an earlier one.
def cachedDirEntries (ino : Nat) : List (String × Nat) :=
  (fs.seen ino).reverse.filter fun entry => entry.fst ≠ "." && entry.fst ≠ ".."

def findChildIno (parent : Nat) (name : String) : Option Nat :=
  ((fs.cachedDirEntries parent).find? (·.fst = name)).map Prod.snd

-- The loop of `resolve_existing_locked`.
def walk : Nat → HostPath String → Option Nat
  | ino, []           => some ino
  | ino, [name]       => fs.findChildIno ino name
  | ino, name :: rest =>
    match fs.findChildIno ino name with
    | none       => none
    | some child => if (fs.inodes child).kind = .directory then walk child rest else none

def resolveExisting (path : HostPath String) : Option (Nat × Ext4NodeKind) :=
  (fs.walk ROOT_INODE path).map fun ino => (ino, (fs.inodes ino).kind)

-- The directory that a path is in, and the last component.
def resolveParent (path : HostPath String) : Except SysErrNo (Nat × String) :=
  match splitParentName path with
  | .error err               => .error err
  | .ok (parentPath, name) =>
    match fs.resolveExisting parentPath with
    | none                     => .error .ENOENT
    | some (parentIno, kind) => if kind ≠ .directory then .error .ENOTDIR else .ok (parentIno, name)

-- What is read from a regular file.
def content (ino : Nat) : List UInt8 :=
  (fs.regularCache ino).getD (fs.inodes ino).data

def invalidateNamespace : Ext4Namespace :=
  { fs with seen := fun ino => (fs.inodes ino).entries }

def flushCachedIno (ino : Nat) : Ext4Namespace :=
  { fs with inodes := fs.inodes.setData ino (fs.content ino), regularCache := Function.update fs.regularCache ino none }

def discardRegularCache (ino : Nat) : Ext4Namespace :=
  { fs with regularCache := Function.update fs.regularCache ino none }

-- A file that is open goes when it is closed.
def delayDelete (ino : Nat) : Bool :=
  (fs.inodes ino).linksCount ≤ 1 && fs.openRegularRefs ino > 0

def iallocFreeInode (ino : Nat) : Ext4Namespace :=
  { fs with freeInodes := ino :: fs.freeInodes }

def withInodes (change : Ext4Inodes → Ext4Inodes) : Ext4Namespace :=
  { fs with inodes := change fs.inodes }

end Ext4Namespace

abbrev Ext4Program := Program SysErrNo Ext4Namespace

def dirAddEntry (parent : Nat) (name : String) (child : Nat) : Ext4Program Unit :=
  call (·.withInodes (·.addEntry parent name child))

def dirRemoveEntry (parent : Nat) (name : String) : Ext4Program Unit := do
  let fs ← get
  lift (if (fs.inodes parent).entries.all (·.fst ≠ name) then .error .ENOENT else .ok ())
  call (·.withInodes (·.removeEntry parent name))

def truncateInode (ino : Nat) : Ext4Program Unit :=
  call (·.withInodes (·.truncate ino))

-- The inode that is allocated is written back without links.
def createInode (kind : Ext4NodeKind) : Ext4Program Nat := do
  let fs ← get
  let ino ← lift (match fs.freeInodes with | [] => .error .ENOSPC | ino :: _ => .ok ino)
  call fun fs => { fs with inodes := Function.update fs.inodes ino (.new kind), freeInodes := fs.freeInodes.tail }
  return ino

namespace Ext4Namespace

variable (fs : Ext4Namespace)

-- The file that `unlink` removes, with its directory and its name.
def unlinkTarget (path : HostPath String) : Except SysErrNo (Nat × String × Nat) :=
  match fs.resolveParent path with
  | .error err             => .error err
  | .ok (parentIno, name) =>
    match fs.resolveExisting path with
    | none                   => .error .ENOENT
    | some (childIno, kind) => if kind = .directory then .error .EISDIR else .ok (parentIno, name, childIno)

-- The directory that `rmdir` removes.
def removeTarget (path : HostPath String) : Except SysErrNo (Nat × String × Nat) :=
  if path = [] then .error .EINVAL
  else
    match fs.resolveParent path with
    | .error err             => .error err
    | .ok (parentIno, name) =>
      match fs.resolveExisting path with
      | none                   => .error .ENOENT
      | some (childIno, kind) =>
        if kind ≠ .directory then .error .ENOTDIR
        else if fs.cachedDirEntries childIno ≠ [] then .error .ENOTEMPTY
        else .ok (parentIno, name, childIno)

-- The place where something is created.
def createTarget (path : HostPath String) : Except SysErrNo (Nat × String) :=
  match fs.resolveParent path with
  | .error err             => .error err
  | .ok (parentIno, name) =>
    if (fs.resolveExisting path).isSome then .error .EEXIST else .ok (parentIno, name)

end Ext4Namespace

-- The inodes are written back at the end.
def unlinkNonDirLocked (path : HostPath String) : Ext4Program Unit := do
  let fs ← get
  let (parentIno, name, childIno) ← lift (fs.unlinkTarget path)
  let oldLinks := (fs.inodes childIno).linksCount
  let delayDelete := fs.delayDelete childIno
  when (oldLinks > 1) do call (·.flushCachedIno childIno)
  when (oldLinks ≤ 1 ∧ ¬delayDelete) do modify (·.discardRegularCache childIno)
  dirRemoveEntry parentIno name
  when delayDelete do modify fun fs => { fs with pendingUnlink := childIno :: fs.pendingUnlink }
  when (oldLinks ≤ 1 ∧ ¬delayDelete ∧ ¬(fs.inodes childIno).isEmpty) do truncateInode childIno
  modify (·.withInodes (·.setLinksCount childIno (oldLinks - 1)))
  when (oldLinks ≤ 1 ∧ ¬delayDelete) do modify (·.iallocFreeInode childIno)
  modify (·.invalidateNamespace)

def removeEmptyDirExt4Locked (path : HostPath String) : Ext4Program Unit := do
  let fs ← get
  let (parentIno, name, childIno) ← lift (fs.removeTarget path)
  dirRemoveEntry parentIno name
  when (¬(fs.inodes childIno).isEmpty) do truncateInode childIno
  modify (·.withInodes (·.setLinksCount childIno 0))
  modify (·.withInodes (·.setLinksCount parentIno ((fs.inodes parentIno).linksCount - 1)))
  modify (·.iallocFreeInode childIno)
  modify (·.invalidateNamespace)

-- `Ext4::create`: the links are counted when the entries are there.
def createLinked (parentIno : Nat) (name : String) (kind : Ext4NodeKind) : Ext4Program Nat := do
  let ino ← createInode kind
  dirAddEntry parentIno name ino
  when (kind = .directory) do
    dirAddEntry ino "." ino
    dirAddEntry ino ".." parentIno
    modify fun fs => fs.withInodes (·.setLinksCount parentIno ((fs.inodes parentIno).linksCount + 1))
  modify (·.withInodes (·.setLinksCount ino (if kind = .directory then 2 else 1)))
  return ino

def mkdirExt4WithMode (path : HostPath String) : Ext4Program Unit := do
  let fs ← get
  let (parentIno, name) ← lift (fs.createTarget path)
  let _ ← createLinked parentIno name .directory
  modify (·.invalidateNamespace)

-- The target is written to the symlink that has been created.
def createSymlinkExt4 (target : List UInt8) (path : HostPath String) : Ext4Program Unit := do
  let fs ← get
  let (parentIno, name) ← lift (fs.createTarget path)
  let ino ← createLinked parentIno name .symlink
  when (target ≠ []) do call (·.withInodes (·.setData ino target))
  modify (·.invalidateNamespace)

-- What a rename moves, and what there is at the new path.
structure Ext4Rename where
  oldParentIno : Nat
  oldName : String
  newParentIno : Nat
  newName : String
  oldIno : Nat
  oldKind : Ext4NodeKind
  newExisting : Option (Nat × Ext4NodeKind)

-- The checks of `rename_ext4_locked`. It is `none` when there is nothing to rename.
def Ext4Namespace.renameTarget (fs : Ext4Namespace) (old new : HostPath String) (noReplace : Bool) :
    Except SysErrNo (Option Ext4Rename) :=
  if old = new then .ok none
  else if old = [] then .error .EINVAL
  else
    match splitParentName old, splitParentName new with
    | .error err, _ => .error err
    | _, .error err => .error err
    | .ok (oldParentPath, oldName), .ok (newParentPath, newName) =>
      match fs.resolveExisting oldParentPath, fs.resolveExisting newParentPath with
      | none, _ => .error .ENOENT
      | _, none => .error .ENOENT
      | some (oldParentIno, oldParentKind), some (newParentIno, newParentKind) =>
        if oldParentKind ≠ .directory ∨ newParentKind ≠ .directory then .error .ENOTDIR
        else
          match fs.resolveExisting old with
          | none                     => .error .ENOENT
          | some (oldIno, oldKind) =>
            let newExisting := fs.resolveExisting new
            let rename := ⟨oldParentIno, oldName, newParentIno, newName, oldIno, oldKind, newExisting⟩
            if oldKind = .directory ∧ pathIsDescendant old new then .error .EINVAL
            else if noReplace ∧ newExisting.isSome then .error .EEXIST
            else
              match newExisting with
              | none                     => .ok (some rename)
              | some (newIno, newKind) =>
                if newIno = oldIno then .ok none
                else if oldKind = .directory then
                  if newKind ≠ .directory then .error .ENOTDIR
                  else if fs.cachedDirEntries newIno ≠ [] then .error .ENOTEMPTY
                  else .ok (some rename)
                else if newKind = .directory then .error .EISDIR
                else .ok (some rename)

-- The part of a rename behind the new entry.
def Ext4Rename.removeOld (rename : Ext4Rename) : Ext4Program Unit := do
  dirRemoveEntry rename.oldParentIno rename.oldName
  when (rename.oldParentIno ≠ rename.newParentIno ∧ rename.oldKind = .directory) do
    dirRemoveEntry rename.oldIno ".."
    dirAddEntry rename.oldIno ".." rename.newParentIno
    modify fun fs => fs.withInodes
      (·.setLinksCount rename.oldParentIno ((fs.inodes rename.oldParentIno).linksCount - 1))
    modify fun fs => fs.withInodes
      (·.setLinksCount rename.newParentIno ((fs.inodes rename.newParentIno).linksCount + 1))
  modify (·.invalidateNamespace)

-- The new entry is added before the old one is removed.
def Ext4Rename.move (rename : Ext4Rename) : Ext4Program Unit := do
  dirAddEntry rename.newParentIno rename.newName rename.oldIno
  rename.removeOld

def renameExt4Locked (old new : HostPath String) (noReplace : Bool) : Ext4Program Unit := do
  let fs ← get
  match ← lift (fs.renameTarget old new noReplace) with
  | none        => return
  | some rename =>
    when (rename.newExisting.isSome ∧ rename.oldKind = .directory) do removeEmptyDirExt4Locked new
    when (rename.newExisting.isSome ∧ rename.oldKind ≠ .directory) do unlinkNonDirLocked new
    rename.move

-- The name that `exchange_ext4` gives to the first file for a while.
def exchangeName (oldIno newIno attempt : Nat) : String :=
  ".wll_rename_exchange_" ++ toString oldIno ++ "_" ++ toString newIno ++ "_" ++ toString attempt

-- The path of the name, when the exchange can go on.
def Ext4Namespace.exchangeTarget (fs : Ext4Namespace) (old new : HostPath String) :
    Except SysErrNo (Option (HostPath String)) :=
  if old = new then .ok none
  else if old = [] ∨ new = [] then .error .EINVAL
  else
    match splitParentName old with
    | .error err              => .error err
    | .ok (oldParentPath, _) =>
      match fs.resolveExisting old, fs.resolveExisting new with
      | none, _ => .error .ENOENT
      | _, none => .error .ENOENT
      | some (oldIno, oldKind), some (newIno, newKind) =>
        if oldKind = .directory ∧ pathIsDescendant old new then .error .EINVAL
        else if newKind = .directory ∧ pathIsDescendant new old then .error .EINVAL
        else
          match ((List.range 32).map fun attempt => oldParentPath ++ [exchangeName oldIno newIno attempt]).find?
              fun temp => (fs.resolveExisting temp).isNone with
          | none      => .error .EEXIST
          | some temp => .ok (some temp)

-- The first rename is taken back when the second one fails.
def exchangeExt4 (old new : HostPath String) : Ext4Program Unit := do
  let fs ← get
  match ← lift (fs.exchangeTarget old new) with
  | none      => return
  | some temp =>
    renameExt4Locked old temp true
    match ← attempt (renameExt4Locked new old true) with
    | .ok ()     => renameExt4Locked temp new true
    | .error err =>
      let _ ← attempt (renameExt4Locked temp old true)
      lift (.error err)

inductive Ext4Op
  | unlink (path : List String)
  | mkdir (path : List String)
  | symlink (target : List UInt8) (path : List String)
  | rename (old new : List String) (noReplace : Bool)
  | exchange (old new : List String)

def Ext4Op.run : Ext4Op → Ext4Program Unit
  | unlink path              => unlinkNonDirLocked (normalizePath path)
  | mkdir path               => mkdirExt4WithMode (normalizePath path)
  | symlink target path      => createSymlinkExt4 target (normalizePath path)
  | rename old new noReplace => renameExt4Locked (normalizePath old) (normalizePath new) noReplace
  | exchange old new         => exchangeExt4 (normalizePath old) (normalizePath new)

namespace Ext4Inodes

variable (inodes : Ext4Inodes)

def Names (parent : Nat) (name : String) (child : Nat) : Prop :=
  (name, child) ∈ (inodes parent).entries ∧ name ≠ "." ∧ name ≠ ".."

-- The entries of the directories, of a kind.
def count (inodesCount : Nat) (p : String × Nat → Bool) : Nat :=
  ∑ ino ∈ Finset.range inodesCount, (inodes ino).entries.countP p

-- The names that lead to an inode.
def nameCount (inodesCount child : Nat) : Nat :=
  inodes.count inodesCount fun entry => entry.snd = child && entry.fst ≠ "." && entry.fst ≠ ".."

-- The links of a directory are its name, its own `.` and the `..` of those in it.
def LinksExact (inodesCount : Nat) : Prop :=
  ∀ ino, (inodes ino).linksCount = inodes.count inodesCount (·.snd = ino)

def ParentsExact : Prop :=
  ∀ parent name child, inodes.Names parent name child → (inodes child).kind = .directory →
    ("..", parent) ∈ (inodes child).entries

-- A tree of directories.
structure Tree : Prop where
  root : (inodes ROOT_INODE).kind = .directory
  unnamed : ∀ parent name, ¬inodes.Names parent name ROOT_INODE
  nodup : ∀ ino, ((inodes ino).entries.map Prod.fst).Nodup
  single : ∀ parent name parent' name' child, inodes.Names parent name child → inodes.Names parent' name' child →
    (inodes child).kind = .directory → parent = parent' ∧ name = name'

end Ext4Inodes

namespace Ext4Namespace

-- The caches show what the volume has.
structure Coherent (fs : Ext4Namespace) : Prop where
  tree : fs.inodes.Tree
  seen : ∀ ino, fs.seen ino = (fs.inodes ino).entries

structure WellFormed (fs : Ext4Namespace) : Prop extends fs.Coherent where
  links : fs.inodes.LinksExact fs.inodesCount
  parents : fs.inodes.ParentsExact
  directories : ∀ ino, (fs.inodes ino).kind = .directory → ino < fs.inodesCount
  free : ∀ ino ∈ fs.freeInodes, (fs.inodes ino).entries = [] ∧ ∀ parent name, (name, ino) ∉ (fs.inodes parent).entries

-- Every name leads where it led before, and nothing that was only in memory is lost.
structure Intact (fs fs' : Ext4Namespace) : Prop where
  names : ∀ parent name child, fs'.inodes.Names parent name child ↔ fs.inodes.Names parent name child
  nameCount : ∀ ino, fs'.inodes.nameCount fs.inodesCount ino = fs.inodes.nameCount fs.inodesCount ino
  links : fs'.inodes.LinksExact fs.inodesCount
  parents : fs'.inodes.ParentsExact
  cached : ∀ ino data, fs.regularCache ino = some data → fs'.content ino = data

end Ext4Namespace

namespace Ext4Rename

variable (rename : Ext4Rename) (fs : Ext4Namespace)

-- The places that a rename goes from and to.
structure Places (oldDir newDir : HostPath String) : Prop where
  oldParent : fs.walk ROOT_INODE oldDir = some rename.oldParentIno
  oldParentKind : (fs.inodes rename.oldParentIno).kind = .directory
  newParent : fs.walk ROOT_INODE newDir = some rename.newParentIno
  newParentKind : (fs.inodes rename.newParentIno).kind = .directory
  old : fs.walk ROOT_INODE (oldDir ++ [rename.oldName]) = some rename.oldIno
  oldKind : rename.oldKind = (fs.inodes rename.oldIno).kind
  ne : oldDir ++ [rename.oldName] ≠ newDir ++ [rename.newName]
  below : rename.oldKind = .directory → ¬oldDir ++ [rename.oldName] <+: newDir ++ [rename.newName]
  newExisting : rename.newExisting = fs.resolveExisting (newDir ++ [rename.newName])
  existing : ∀ found, rename.newExisting = some found → found.fst ≠ rename.oldIno ∧
    (rename.oldKind = .directory → found.snd = .directory ∧ fs.cachedDirEntries found.fst = []) ∧
    (rename.oldKind ≠ .directory → found.snd ≠ .directory)

-- What a rename without a target leaves: the two names, the `..` and the links of the directories.
def added : Ext4Namespace :=
  fs.withInodes (·.addEntry rename.newParentIno rename.newName rename.oldIno)

def removed : Ext4Namespace :=
  (rename.added fs).withInodes (·.removeEntry rename.oldParentIno rename.oldName)

def reparented : Ext4Namespace :=
  let fs := (rename.removed fs).withInodes fun inodes =>
    (inodes.removeEntry rename.oldIno "..").addEntry rename.oldIno ".." rename.newParentIno
  let fs := fs.withInodes
    (·.setLinksCount rename.oldParentIno ((fs.inodes rename.oldParentIno).linksCount - 1))
  fs.withInodes (·.setLinksCount rename.newParentIno ((fs.inodes rename.newParentIno).linksCount + 1))

def moved : Ext4Namespace :=
  if rename.oldParentIno ≠ rename.newParentIno ∧ rename.oldKind = .directory then
    (rename.reparented fs).invalidateNamespace
  else (rename.removed fs).invalidateNamespace

end Ext4Rename

-- What an exchange has found out when it starts, with the name that the first file gets for a while.
structure Ext4Exchange where
  oldParentIno : Nat
  oldName : String
  newParentIno : Nat
  newName : String
  tempName : String
  oldIno : Nat
  newIno : Nat

namespace Ext4Exchange

variable (exchange : Ext4Exchange) (fs : Ext4Namespace)

structure Places (oldDir newDir : HostPath String) : Prop where
  oldParent : fs.walk ROOT_INODE oldDir = some exchange.oldParentIno
  oldParentKind : (fs.inodes exchange.oldParentIno).kind = .directory
  newParent : fs.walk ROOT_INODE newDir = some exchange.newParentIno
  newParentKind : (fs.inodes exchange.newParentIno).kind = .directory
  old : fs.walk ROOT_INODE (oldDir ++ [exchange.oldName]) = some exchange.oldIno
  new : fs.walk ROOT_INODE (newDir ++ [exchange.newName]) = some exchange.newIno
  temp : fs.walk ROOT_INODE (oldDir ++ [exchange.tempName]) = none
  tempName : exchange.tempName ≠ "." ∧ exchange.tempName ≠ ".."
  ne : oldDir ++ [exchange.oldName] ≠ newDir ++ [exchange.newName]
  oldBelow : ¬oldDir ++ [exchange.oldName] <+: newDir ++ [exchange.newName]
  newBelow : ¬newDir ++ [exchange.newName] <+: oldDir ++ [exchange.oldName]

-- The three renames, and the one that takes the first one back.
def first : Ext4Rename :=
  ⟨exchange.oldParentIno, exchange.oldName, exchange.oldParentIno, exchange.tempName, exchange.oldIno,
    (fs.inodes exchange.oldIno).kind, none⟩

def second : Ext4Rename :=
  ⟨exchange.newParentIno, exchange.newName, exchange.oldParentIno, exchange.oldName, exchange.newIno,
    (fs.inodes exchange.newIno).kind, none⟩

def third : Ext4Rename :=
  ⟨exchange.oldParentIno, exchange.tempName, exchange.newParentIno, exchange.newName, exchange.oldIno,
    (fs.inodes exchange.oldIno).kind, none⟩

def back : Ext4Rename :=
  ⟨exchange.oldParentIno, exchange.tempName, exchange.oldParentIno, exchange.oldName, exchange.oldIno,
    (fs.inodes exchange.oldIno).kind, none⟩

end Ext4Exchange

-- The call is the first one that fails.
def FailsAt (faults : Nat → Option SysErrNo) (n : Nat) : Prop :=
  (∀ m < n, faults m = none) ∧ faults n ≠ none

namespace Ext4Namespace

variable (fs : Ext4Namespace) (faults : Nat → Option SysErrNo)

-- The last link of a file that is not open takes what is cached of the file with it, before the entry is removed.
def UnlinkSurvives (childIno : Nat) : Prop :=
  if (fs.inodes childIno).linksCount > 1 then FailsAt faults 0 ∨ FailsAt faults 1
  else FailsAt faults 0 ∧ (fs.openRegularRefs childIno > 0 ∨ fs.content childIno = (fs.inodes childIno).data)

def RenameSurvives (rename : Ext4Rename) : Prop :=
  match rename.newExisting with
  | none                 => FailsAt faults 0
  | some (_, .directory) => FailsAt faults 0
  | some (newIno, _)     => fs.UnlinkSurvives faults newIno

end Ext4Namespace

-- The call that fails comes before a directory has been changed, or the exchange is taken back.
def Ext4Op.Survives (fs : Ext4Namespace) (faults : Nat → Option SysErrNo) : Ext4Op → Prop
  | unlink path              =>
    ∀ target, fs.unlinkTarget (normalizePath path) = .ok target → fs.UnlinkSurvives faults target.snd.snd
  | mkdir path               =>
    ∀ target, fs.createTarget (normalizePath path) = .ok target →
      fs.freeInodes = [] ∨ FailsAt faults 0 ∨ FailsAt faults 1
  | symlink _ path           =>
    ∀ target, fs.createTarget (normalizePath path) = .ok target →
      fs.freeInodes = [] ∨ FailsAt faults 0 ∨ FailsAt faults 1
  | rename old new noReplace =>
    ∀ rename, fs.renameTarget (normalizePath old) (normalizePath new) noReplace = .ok (some rename) →
      fs.RenameSurvives faults rename
  | exchange old new         =>
    ∀ temp, fs.exchangeTarget (normalizePath old) (normalizePath new) = .ok (some temp) →
      FailsAt faults 0 ∨ (FailsAt faults 2 ∧ faults 3 = none ∧ faults 4 = none)

end WllOs.Fs
