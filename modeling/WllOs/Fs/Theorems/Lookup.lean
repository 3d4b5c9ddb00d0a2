import WllOs.Fs.Operations
import WllOs.Library.Fallible

namespace WllOs.Fs.Namespace

variable {N : Type} {fs other : Namespace N} {path part q : HostPath N} {c : N} {metadata : Metadata} {node : Node N}

theorem lookup_ok_iff : fs.lookup path = .ok node ↔ fs.removed path = false ∧
    (fs.mem path = some node ∨ fs.mem path = none ∧ fs.tmpfs path = false ∧ fs.disk path = some node) := by
  rw [lookup]
  cases fs.removed path
  case true => simp
  case false =>
    cases fs.mem path
    case some => simp
    case none =>
      cases fs.tmpfs path
      case true => simp
      case false => cases fs.disk path <;> simp

theorem vfs_link_none (h : fs.lookupSymlinkTarget path = .ok none) : fs.vfs.link path = .ok none := by
  simp [vfs, h, Except.map]

theorem vfs_link_some {target : PathText N} (h : fs.lookupSymlinkTarget path = .ok (some target)) :
    fs.vfs.link path = .ok (some (symlinkTargetPath path target)) := by
  simp [vfs, h, Except.map]

theorem vfs_enter_directory (h : fs.lookup path = .ok (.directory metadata)) : fs.vfs.enter path = .ok () := by
  simp [vfs, h, Node.isDirectory, bind, Except.bind, pure, Except.pure]

-- Without caches the shortcut for paths of one component makes no difference.
theorem resolveParentSymlinksForLookup_eq :
    fs.resolveParentSymlinksForLookup path = fs.vfs.resolve .preserve maxLinks path := by
  rw [resolveParentSymlinksForLookup]
  split
  case isFalse => rfl
  case isTrue h =>
    match path with
    | []          => rfl
    | [c]         => rfl
    | c :: d :: p => simp [parentPath] at h

-- Both file systems hold the same at a path.
structure SameAt (fs other : Namespace N) (path : HostPath N) : Prop where
  removed : fs.removed path = other.removed path
  tmpfs   : fs.tmpfs path = other.tmpfs path
  mem     : fs.mem path = other.mem path
  disk    : fs.disk path = other.disk path

theorem SameAt.lookupSymlinkTarget (h : fs.SameAt other path) :
    fs.lookupSymlinkTarget path = other.lookupSymlinkTarget path := by
  simp only [Namespace.lookupSymlinkTarget, h.removed, h.tmpfs, h.mem, h.disk]

theorem SameAt.pathExistsNonDir (h : fs.SameAt other path) :
    fs.pathExistsNonDir path = other.pathExistsNonDir path := by
  simp only [Namespace.pathExistsNonDir, h.removed, h.tmpfs, h.mem, h.disk]

theorem SameAt.lookup (h : fs.SameAt other path) (hp : fs.SameAt other (parentPath path)) :
    fs.lookup path = other.lookup path := by
  simp only [Namespace.lookup, missingPathErrno, h.removed, h.tmpfs, h.mem, h.disk, hp.pathExistsNonDir]

-- Where the ext4 volume holds an object, all paths above are directories on the volume.
theorem disk_directory_of_prefix (h : fs.disk (path ++ c :: part) ≠ none) :
    ∃ metadata, fs.disk path = some (.directory metadata) := by
  induction part using List.reverseRecOn
  case nil => exact fs.closed _ _ h
  case append_singleton part d hi =>
    apply hi
    have ⟨_, hd⟩ := fs.closed (path ++ c :: part) d (by simpa using h)
    simp [hd]

theorem ext4_plain (h : fs.disk path = some (.directory metadata)) : fs.ext4.Plain path := by
  intro part _ hp
  have ⟨metadata', hd⟩ : ∃ metadata, fs.disk part = some (.directory metadata) := by
    have ⟨rest, he⟩ := hp
    cases rest
    case nil => exact ⟨metadata, by simpa [← he] using h⟩
    case cons d rest => exact disk_directory_of_prefix (show fs.disk (part ++ d :: rest) ≠ none by simp [he, h])
  exact ⟨by simp [ext4, hd, Node.target?], by simp [ext4, hd, Node.isDirectory]⟩

-- A disk without any files.
theorem closed_of_empty (path : HostPath N) (component : N)
    (h : (fun _ => none : HostPath N → Option (Node N)) (path ++ [component]) ≠ none) :
    ∃ metadata, (fun _ => none : HostPath N → Option (Node N)) path = some (.directory metadata) :=
  absurd rfl h

end WllOs.Fs.Namespace

namespace WllOs.Fs

variable {N : Type} {fs : Namespace N} {directory next path q : HostPath N} {parts rest : List (Part N)} {c : N}
variable {final : FinalLink} {links : Nat} {names : List N}

theorem normalize_concat : normalize path (parts ++ rest) = normalize (normalize path parts) rest := by
  simp [normalize]

namespace Namespace

def Stop.Plain (fs : Namespace N) : Stop N → Prop
  | arrived target    => fs.vfs.Plain (parentPath target)
  | redirected next _ => fs.vfs.Plain next

-- The directories of the resolution are plain ones.
theorem posixScan_plain {stop : Stop N} (hp : fs.vfs.Plain directory)
    (h : fs.posixScan final directory parts = .ok stop) : stop.Plain fs := by
  induction parts generalizing directory
  case nil => cases h; exact hp.of_prefix (List.dropLast_prefix _)
  case cons part parts hi =>
    cases part
    case empty => exact hi hp h
    case dot => exact hi hp h
    case dotdot => exact hi (hp.of_prefix (List.dropLast_prefix _)) h
    case name c =>
      rw [posixScan] at h
      split at h
      case isTrue => cases h; simpa [Stop.Plain, parentPath] using hp
      case isFalse =>
        cases hl : fs.lookupSymlinkTarget (directory ++ [c]) with
        | error => simp [hl] at h
        | ok link =>
          cases link <;> simp only [hl] at h
          case some target =>
            split at h <;> cases h
            case isFalse =>
              rw [Stop.Plain]
              split
              case isTrue => exact hp.of_prefix List.nil_prefix
              case isFalse => exact hp
          case none =>
            split at h
            case isTrue => cases h; simpa [Stop.Plain, parentPath] using hp
            case isFalse =>
              cases he : fs.vfs.enter (directory ++ [c]) with
              | error => simp [he] at h
              | ok =>
                simp only [he] at h
                exact hi (hp.snoc (vfs_link_none hl) he) h

theorem posixResolve_plain (hp : fs.vfs.Plain directory) (h : fs.posixResolve final links directory parts = .ok q) :
    fs.vfs.Plain (parentPath q) := by
  induction links generalizing directory parts
  case zero =>
    have ⟨stop, hs, h⟩ := Fallible.bind_ok h
    cases stop <;> cases h
    exact posixScan_plain hp hs
  case succ links hi =>
    have ⟨stop, hs, h⟩ := Fallible.bind_ok h
    cases stop
    case arrived => cases h; exact posixScan_plain hp hs
    case redirected => exact hi (posixScan_plain hp hs) h

-- Until the first name, a text climbs.
theorem posixScan_steps {steps : List (Part N)} (h : ∀ step ∈ steps, ∀ name, step ≠ .name name) :
    fs.posixScan final directory (steps ++ parts) = fs.posixScan final (normalize directory steps) parts := by
  induction steps generalizing directory
  case nil => rfl
  case cons step steps hi =>
    have hs : ∀ step ∈ steps, ∀ name, step ≠ .name name := fun s hs => h s (List.mem_cons_of_mem _ hs)
    cases step
    case name name => exact absurd rfl (h _ List.mem_cons_self name)
    case empty => exact hi hs
    case dot => exact hi hs
    case dotdot => exact hi hs

def Stop.arrival : Stop N → LinkTree.Arrival N
  | arrived path         => .arrived path
  | redirected next rest => .redirected (normalize next rest)

-- Along names, both resolutions meet the same link.
theorem scan_names : fs.vfs.scan final directory names =
    (fs.posixScan final directory (names.map .name)).map Stop.arrival := by
  induction names generalizing directory
  case nil => rfl
  case cons c names hi =>
    simp only [LinkTree.scan, List.map_cons, posixScan, List.isEmpty_map]
    split
    case isTrue => rfl
    case isFalse =>
      cases hl : fs.lookupSymlinkTarget (directory ++ [c]) with
      | error => simp [vfs, hl, Except.map]
      | ok link =>
        cases link
        case some target =>
          simp only [vfs_link_some hl]
          split
          case isTrue => rfl
          case isFalse =>
            simp only [Except.map, Stop.arrival, normalize_concat, normalize_names, symlinkTargetPath]
            cases target.absolute <;> simp [parentPath]
        case none =>
          simp only [vfs_link_none hl]
          split
          case isTrue => rfl
          case isFalse =>
            cases fs.vfs.enter (directory ++ [c]) with
            | error => rfl
            | ok => exact hi

theorem plain_normalize (hp : fs.vfs.Plain directory) (h : ∀ part ∈ parts, ∀ name, part ≠ .name name) :
    fs.vfs.Plain (normalize directory parts) := by
  induction parts generalizing directory
  case nil => exact hp
  case cons part parts hi =>
    have hs : ∀ part ∈ parts, ∀ name, part ≠ .name name := fun s hs => h s (List.mem_cons_of_mem _ hs)
    cases part
    case name name => exact absurd rfl (h _ List.mem_cons_self name)
    case empty => exact hi hp hs
    case dot => exact hi hp hs
    case dotdot => exact hi (hp.of_prefix (List.dropLast_prefix _)) hs

-- If no `..` stands after a name, both resolutions lead to the same object.
theorem resolve_straight (hp : fs.vfs.Plain directory)
    (h : ∀ leg ∈ fs.posixLegs final links directory parts, Straight leg.2) :
    fs.vfs.resolve final links (normalize directory parts) = fs.posixResolve final links directory parts := by
  have hscan {directory parts} (hp : fs.vfs.Plain directory) (hs : Straight parts) :
      fs.vfs.scan final [] (normalize directory parts) = (fs.posixScan final directory parts).map Stop.arrival := by
    have ⟨steps, names, he, hn⟩ := hs
    subst he
    rw [posixScan_steps hn, ← scan_names, normalize_concat, normalize_names]
    exact LinkTree.scan_plain_nil (plain_normalize hp hn)
  induction links generalizing directory parts
  case zero =>
    rw [LinkTree.resolve, posixResolve, hscan hp (h (directory, parts) (by simp [posixLegs]))]
    cases fs.posixScan final directory parts with
    | error => rfl
    | ok stop => cases stop <;> rfl
  case succ links hi =>
    rw [LinkTree.resolve, posixResolve, hscan hp (h (directory, parts) (by simp [posixLegs]))]
    cases hs : fs.posixScan final directory parts with
    | error => rfl
    | ok stop =>
      cases stop
      case arrived => rfl
      case redirected next rest =>
        exact hi (posixScan_plain hp hs) fun leg hm => h leg (by simp [posixLegs, hs, hm])

end Namespace

end WllOs.Fs
