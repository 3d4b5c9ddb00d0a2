import WllOs.Fs.Theorems.Chroot

namespace WllOs.Fs

variable {N : Type} {fs : Namespace N} {directory next path q : HostPath N} {init parts rest : List (Part N)}
variable {c : N} {links more : Nat} {target : PathText N} {node : Node N} {e : SysErrNo}

namespace Namespace

theorem posixScan_name {final : FinalLink} (h : parts ≠ []) : fs.posixScan final directory (.name c :: parts) =
    match fs.lookupSymlinkTarget (directory ++ [c]) with
    | .error e          => .error e
    | .ok (some target) => .ok (.redirected (if target.absolute then [] else directory) (target.parts ++ parts))
    | .ok none          =>
      match fs.vfs.enter (directory ++ [c]) with
      | .error e => .error e
      | .ok ()   => fs.posixScan final (directory ++ [c]) parts := by
  cases parts
  case nil => exact absurd rfl h
  case cons =>
    cases hl : fs.lookupSymlinkTarget (directory ++ [c]) with
    | error => simp [posixScan, hl]
    | ok link => cases link <;> (simp [posixScan, hl]; try rfl)

-- A last name is treated apart from the rest of a text.
theorem posixScan_last : fs.posixScan .follow directory (init ++ [.name c]) =
    match fs.posixScan .preserve directory (init ++ [.name c]) with
    | .error e                   => .error e
    | .ok (.redirected next rest) => .ok (.redirected next rest)
    | .ok (.arrived q)           => fs.posixScan .follow (parentPath q) [.name c] := by
  induction init generalizing directory
  case nil => simp [posixScan, parentPath]
  case cons part init hi =>
    cases part
    case empty => exact hi
    case dot => exact hi
    case dotdot => exact hi
    case name n =>
      have hn : init ++ [.name c] ≠ [] := by simp
      rw [List.cons_append, posixScan_name hn, posixScan_name hn]
      cases fs.lookupSymlinkTarget (directory ++ [n]) with
      | error => rfl
      | ok link =>
        cases link
        case some => rfl
        case none =>
          cases fs.vfs.enter (directory ++ [n]) with
          | error => rfl
          | ok => exact hi

def Stop.EndsWith (c : N) : Stop N → Prop
  | arrived q         => q = parentPath q ++ [c]
  | redirected _ rest => ∃ init, rest = init ++ [.name c]

theorem posixScan_preserve_last {stop : Stop N} (h : fs.posixScan .preserve directory (init ++ [.name c]) = .ok stop) :
    stop.EndsWith c := by
  induction init generalizing directory
  case nil =>
    cases h
    simp [Stop.EndsWith, parentPath]
  case cons part init hi =>
    cases part
    case empty => exact hi h
    case dot => exact hi h
    case dotdot => exact hi h
    case name n =>
      rw [List.cons_append, posixScan_name (by simp)] at h
      cases hl : fs.lookupSymlinkTarget (directory ++ [n]) with
      | error => simp [hl] at h
      | ok link =>
        cases link <;> simp only [hl] at h
        case some target => cases h; exact ⟨target.parts ++ init, by simp⟩
        case none =>
          cases he : fs.vfs.enter (directory ++ [n]) with
          | error => simp [he] at h
          | ok => exact hi (by simpa only [he] using h)

theorem posixResolve_last (h : fs.posixResolve .preserve links directory (init ++ [.name c]) = .ok q) :
    q = parentPath q ++ [c] ∧ ∃ left ≤ links,
      fs.posixResolve .follow links directory (init ++ [.name c]) =
        fs.posixResolve .follow left (parentPath q) [.name c] := by
  induction links generalizing directory init
  case zero =>
    obtain ⟨stop, hs, h⟩ := Fallible.bind_ok h
    cases stop <;> cases h
    exact ⟨posixScan_preserve_last hs, 0, Nat.le_refl _, by rw [posixResolve, posixScan_last, hs]; rfl⟩
  case succ links hi =>
    obtain ⟨stop, hs, h⟩ := Fallible.bind_ok h
    cases stop
    case arrived =>
      cases h
      exact ⟨posixScan_preserve_last hs, links + 1, Nat.le_refl _, by rw [posixResolve, posixScan_last, hs]; rfl⟩
    case redirected next rest =>
      obtain ⟨init', he⟩ := posixScan_preserve_last hs
      subst he
      obtain ⟨hq, left, hl, he⟩ := hi h
      exact ⟨hq, left, by omega, by rw [← he, posixResolve, posixScan_last, hs]; rfl⟩

-- With more links allowed, a resolution that did not exceed the limit gives the same.
theorem posixResolve_mono {final : FinalLink} (h : fs.posixResolve final links directory parts ≠ .error .ELOOP)
    (hm : links ≤ more) : fs.posixResolve final more directory parts = fs.posixResolve final links directory parts := by
  induction links generalizing directory parts more
  case zero =>
    rw [posixResolve] at h ⊢
    cases hs : fs.posixScan final directory parts with
    | error => cases more <;> simp [posixResolve, hs, bind, Except.bind]
    | ok stop =>
      cases stop
      case arrived => cases more <;> simp [posixResolve, hs, bind, Except.bind, Stop.elim]
      case redirected => simp [hs, bind, Except.bind, Stop.elim] at h
  case succ links hi =>
    cases more
    case zero => cases hm
    case succ more =>
      rw [posixResolve] at h ⊢
      rw [posixResolve]
      cases hs : fs.posixScan final directory parts with
      | error => rfl
      | ok stop =>
        cases stop
        case arrived => rfl
        case redirected next rest =>
          apply hi _ (by omega)
          simpa [hs, bind, Except.bind, Stop.elim] using h

theorem posixLegs_mono {final : FinalLink} (hm : links ≤ more) :
    ∀ leg ∈ fs.posixLegs final links directory parts, leg ∈ fs.posixLegs final more directory parts := by
  intro leg
  induction links generalizing directory parts more
  case zero => cases more <;> simp_all [posixLegs]
  case succ links hi =>
    cases more
    case zero => cases hm
    case succ more =>
      simp only [posixLegs, List.mem_cons]
      refine Or.imp_right fun h => ?_
      cases hs : fs.posixScan final directory parts with
      | error => simp [hs] at h
      | ok stop =>
        cases stop
        case arrived => simp [hs] at h
        case redirected next rest =>
          simp only [hs] at h ⊢
          exact hi (by omega) h

-- What `lookup` and `lookupSymlinkTarget` say about one path.
theorem target_none (h : fs.lookupSymlinkTarget path = .ok none) (hn : fs.lookup path = .ok node) :
    node.target? = none := by
  obtain ⟨hr, hn⟩ := lookup_ok_iff.mp hn
  rw [lookupSymlinkTarget, hr] at h
  cases hn
  case inl hm =>
    cases ht : node.target? with
    | none => rfl
    | some => simp [hm, ht] at h
  case inr hd =>
    obtain ⟨hm, ht, hd⟩ := hd
    simpa [hm, ht, hd] using h

theorem lookupSymlinkTarget_error (h : fs.lookupSymlinkTarget path = .error e) :
    fs.removed path = true ∧ e = .ENOENT := by
  rw [lookupSymlinkTarget] at h
  split at h
  case isTrue hr => cases h; exact ⟨hr, rfl⟩
  case isFalse => split at h <;> [cases h; split at h <;> cases h]

theorem OnDisk.link (h : fs.OnDisk path) : fs.vfs.link path = fs.ext4.link path := by
  have ⟨hr, ht, hm, hd⟩ := h
  cases hk : fs.disk path
  case none => exact absurd hk hd
  case some => simp [vfs, ext4, lookupSymlinkTarget, hr, ht, hm, hk, Except.map]

theorem OnDisk.lookup (h : fs.OnDisk path) : fs.lookup path = fs.ext4Metadata path := by
  have ⟨hr, ht, hm, hd⟩ := h
  cases hk : fs.disk path
  case none => exact absurd hk hd
  case some => simp [Namespace.lookup, ext4Metadata, hr, ht, hm, hk]

theorem OnDisk.enter (h : fs.OnDisk path) : fs.vfs.enter path = fs.ext4.enter path := by
  have hl := h.lookup
  have ⟨_, _, _, hd⟩ := h
  cases hk : fs.disk path
  case none => exact absurd hk hd
  case some node =>
    rw [ext4Metadata, hk] at hl
    simp only [vfs, ext4, hl, hk, bind, Except.bind, Option.any_some]
    rfl

section Directory

variable {text : PathText N} {cwd : HostPath N} (ht : text.parts = init ++ [.name c])
include ht

theorem resolvePath_last : resolvePath cwd text = parentPath (resolvePath cwd text) ++ [c] := by
  cases ha : text.absolute <;> simp [resolvePath, ha, ht, normalize, Part.push, parentPath]

theorem directories_agree_iff (hc : fs.RootDirectory cwd) :
    (∀ operation : PathOperation, fs.directoryOf (resolvePath cwd text) operation.call =
      fs.posixDirectory (if text.absolute then [] else cwd) text.parts) ↔
    fs.DirectoryAgrees (if text.absolute then [] else cwd) (resolvePath cwd text) text.parts := by
  have hp : fs.vfs.Plain (if text.absolute then [] else cwd) := by
    split
    case isTrue => exact hc.plain.of_prefix List.nil_prefix
    case isFalse => exact hc.plain
  constructor
  case mp =>
    intro h
    exact ⟨h .unlink, fun hn => (h .readlink).trans hn⟩
  case mpr =>
    intro ⟨hl, hn⟩
    suffices hr : fs.resolvedDirectory (resolvePath cwd text) =
        fs.posixDirectory (if text.absolute then [] else cwd) text.parts by
      intro operation
      cases operation <;> simp only [PathOperation.call]
      case stat follow => cases follow <;> exact hr
      case «open» => rw [directoryOf]; split <;> [exact hl; exact hr]
      case access follow => cases follow <;> exact hl
      case chmod follow => cases follow <;> exact hl
      case chown follow => cases follow <;> exact hl
      case utimensat follow => cases follow <;> exact hl
      all_goals first | exact hl | exact hr
    cases hd : fs.posixDirectory (if text.absolute then [] else cwd) text.parts with
    | none => exact hn hd
    | some directory =>
      rw [hd, literalDirectory] at hl
      split at hl <;> cases hl
      rw [posixDirectory] at hd
      cases hq : fs.posixResolve .preserve maxLinks (if text.absolute then [] else cwd) text.parts with
      | error => simp [hq, Except.toOption] at hd
      | ok q =>
        have he : parentPath q = parentPath (resolvePath cwd text) := by simpa [hq, Except.toOption] using hd
        have hp := he ▸ posixResolve_plain hp hq
        rw [resolvedDirectory, resolveParentSymlinksForLookup_eq, resolvePath_last ht,
          LinkTree.resolve_last_preserve hp]
        simp [Except.toOption, parentPath]

end Directory

-- The object at the end of a resolution.
def objectAt (fs : Namespace N) (resolved : Except SysErrNo (HostPath N)) : Option (HostPath N × Node N) :=
  resolved.toOption.bind fun target => (fs.lookup target).toOption.map (target, ·)

section Object

variable {call : PathCall} (hp : fs.vfs.Plain directory)

theorem objectOf_found {resolved : Except SysErrNo (HostPath N)}
    (h : fs.reach path call = resolved >>= fun target => pure (fs.found target)) :
    fs.objectOf path call = fs.objectAt resolved := by
  rw [objectOf, h, objectAt]
  cases resolved
  case error => rfl
  case ok target =>
    simp only [bind, Except.bind, pure, Except.pure, found, Except.toOption, Option.bind_some]
    cases fs.lookup target <;> rfl

theorem objectOf_metadata {resolved : Except SysErrNo (HostPath N × Node N)}
    (h : fs.reach path call = resolved >>= fun (target, node) => pure (target, .ok node)) :
    fs.objectOf path call = resolved.toOption := by
  rw [objectOf, h]
  cases resolved <;> rfl

include hp

theorem resolveParents_child : fs.resolveParentSymlinksForLookup (directory ++ [c]) = .ok (directory ++ [c]) := by
  rw [resolveParentSymlinksForLookup_eq]
  exact LinkTree.resolve_last_preserve hp

-- In a directory, the calls differ only in the way they follow a last link.
theorem objectOf_stat : fs.objectOf (directory ++ [c]) .stat = (fs.metadataFollow (directory ++ [c])).toOption :=
  objectOf_metadata (by rw [reach, resolveParents_child hp]; rfl)

theorem objectOf_truncate : fs.objectOf (directory ++ [c]) .truncate =
    fs.objectAt (fs.vfs.resolve .follow maxLinks (directory ++ [c])) :=
  objectOf_found (by rw [reach, resolveParents_child hp]; rfl)

theorem objectOf_openPath : fs.objectOf (directory ++ [c]) (.openPath false) =
    fs.objectAt (fs.resolveFinalComponentSymlink (directory ++ [c]) false) := by
  cases hr : fs.removed (directory ++ [c])
  case false =>
    refine objectOf_found ?_
    rw [reach, hr, resolveParents_child hp]
    rfl
  case true =>
    have hl : fs.lookupSymlinkTarget (directory ++ [c]) = .error .ENOENT := by simp [lookupSymlinkTarget, hr]
    have hf : fs.resolveFinalComponentSymlink (directory ++ [c]) false = .error .ENOENT := by
      simp [resolveFinalComponentSymlink, hl, bind, Except.bind]
    simp [objectOf, reach, hr, found, lookup, hf, objectAt, Except.toOption, pure, Except.pure]

omit hp in
theorem posixResolve_child {left : Nat} : fs.posixResolve .follow left directory [.name c] =
    match fs.lookupSymlinkTarget (directory ++ [c]) with
    | .error e          => .error e
    | .ok none          => .ok (directory ++ [c])
    | .ok (some target) =>
      match left with
      | 0        => .error .ELOOP
      | left + 1 => fs.posixResolve .follow left (if target.absolute then [] else directory) target.parts := by
  cases hl : fs.lookupSymlinkTarget (directory ++ [c]) with
  | error => cases left <;> simp [posixResolve, posixScan, hl, bind, Except.bind]
  | ok link => cases link <;> cases left <;> simp [posixResolve, posixScan, hl, bind, Except.bind, Stop.elim]

-- The three ways of following a last link end where POSIX has it.
theorem resolve_child {left : Nat} (hm : left ≤ maxLinks)
    (h : ∀ target, fs.lookupSymlinkTarget (directory ++ [c]) = .ok (some target) →
      fs.LinkAgrees (directory ++ [c]) target ∧ fs.posixResolve .follow left directory [.name c] ≠ .error .ELOOP) :
    fs.vfs.resolve .follow maxLinks (directory ++ [c]) = fs.posixResolve .follow left directory [.name c] ∧
    fs.resolveFinalComponentSymlink (directory ++ [c]) false = fs.posixResolve .follow left directory [.name c] ∧
    (fs.metadataFollow (directory ++ [c])).toOption =
      fs.objectAt (fs.posixResolve .follow left directory [.name c]) := by
  rw [posixResolve_child] at h ⊢
  cases hl : fs.lookupSymlinkTarget (directory ++ [c]) with
  | error e =>
    obtain ⟨hr, he⟩ := lookupSymlinkTarget_error hl
    subst he
    refine ⟨?_, ?_, ?_⟩
    case refine_1 =>
      rw [LinkTree.resolve_turn_error (e := .ENOENT) hp (by simp [vfs, hl, Except.map])]
      rfl
    case refine_2 => simp [resolveFinalComponentSymlink, hl, bind, Except.bind]
    case refine_3 => simp [metadataFollow, lookup, hr, bind, Except.bind, Except.toOption, objectAt]
  | ok link =>
    cases link
    case none =>
      refine ⟨LinkTree.resolve_last_none hp (vfs_link_none hl), ?_, ?_⟩
      case refine_1 => simp [resolveFinalComponentSymlink, hl, bind, Except.bind, pure, Except.pure]
      case refine_2 =>
        rw [metadataFollow, objectAt]
        cases hn : fs.lookup (directory ++ [c]) with
        | error => simp [bind, Except.bind, Except.toOption, hn]
        | ok node =>
          simp [bind, Except.bind, Except.toOption, hn, target_none hl hn, pure, Except.pure]
    case some target =>
      obtain ⟨hk, hn⟩ := h target hl
      simp only [hl] at hn
      cases left
      case zero => exact absurd rfl hn
      case succ left =>
        have hd : fs.vfs.Plain (if target.absolute then [] else directory) := by
          split
          case isTrue => exact hp.of_prefix List.nil_prefix
          case isFalse => exact hp
        have hs : symlinkTargetPath (directory ++ [c]) target =
            normalize (if target.absolute then [] else directory) target.parts := by
          cases ha : target.absolute <;> simp [symlinkTargetPath, ha, parentPath]
        have hlegs {links : Nat} (hm : links ≤ maxLinks) :
            fs.vfs.resolve .follow links (symlinkTargetPath (directory ++ [c]) target) =
              fs.posixResolve .follow links (if target.absolute then [] else directory) target.parts := by
          rw [hs]
          apply resolve_straight hd
          intro leg hm'
          apply hk.straight leg
          simpa [parentPath] using posixLegs_mono hm leg hm'
        have hall {links : Nat} (hm : links ≤ maxLinks) (hl : left ≤ links) :
            fs.vfs.resolve .follow links (symlinkTargetPath (directory ++ [c]) target) =
              fs.posixResolve .follow left (if target.absolute then [] else directory) target.parts :=
          (hlegs hm).trans (posixResolve_mono hn hl)
        have hfinal : fs.vfs.resolve .follow maxLinks (directory ++ [c]) =
            fs.posixResolve .follow left (if target.absolute then [] else directory) target.parts := by
          rw [maxLinks, LinkTree.resolve_last_link hp (vfs_link_some hl)]
          exact hall (by decide) (Nat.le_of_lt_succ hm)
        refine ⟨hfinal, ?_, ?_⟩
        case refine_1 =>
          simp only [resolveFinalComponentSymlink, hl, bind, Except.bind, Bool.false_eq_true, if_false]
          exact hall (Nat.le_refl _) (by omega)
        case refine_2 =>
          obtain ⟨metadata, hnode⟩ := hk.shown
          simp only [metadataFollow, hnode, bind, Except.bind, Node.target?, resolveFinalSymlink, resolvePathSymlinks,
            Bool.false_eq_true, if_false]
          cases hmem : fs.mem (directory ++ [c])
          case some =>
            simp only [Option.isSome_some, if_true, hfinal, objectAt]
            cases fs.posixResolve .follow left (if target.absolute then [] else directory) target.parts with
            | error => rfl
            | ok q => cases hq : fs.lookup q <;> simp [Except.toOption, hq, pure, Except.pure]
          case none =>
            have hext : fs.resolveSymlinks (directory ++ [c]) =
                fs.posixResolve .follow left (if target.absolute then [] else directory) target.parts := by
              have hloop : fs.vfs.loop = fs.ext4.loop := rfl
              rw [← hfinal]
              apply Eq.symm
              apply LinkTree.resolve_local hloop
              intro part hpart
              have hd := hk.onDisk hmem part hpart
              exact ⟨hd.link, hd.enter⟩
            simp only [Option.isSome_none, Bool.false_eq_true, if_false, hext, objectAt]
            cases hr : fs.posixResolve .follow left (if target.absolute then [] else directory) target.parts with
            | error => rfl
            | ok q =>
              have hq := (hk.end hmem q (hfinal.trans hr)).lookup
              simp only [Except.toOption, Option.bind_some, ← hq]
              cases fs.lookup q <;> rfl

end Object

-- A memory file system with a directory 0, in which there is a regular file 2, and a link 1 to the directory.
def linkIn : Namespace Nat where
  removed _ := false
  tmpfs _   := true
  mem path  :=
    if path = [] then some (.directory ⟨1, 0o755, 0, 0⟩)
    else if path = [0] then some (.directory ⟨2, 0o755, 0, 0⟩)
    else if path = [1] then some (.symlink ⟨true, [.name 0]⟩ ⟨3, 0o777, 0, 0⟩)
    else if path = [0, 2] then some (.regular ⟨4, 0o600, 0, 0⟩)
    else none
  disk _    := none
  closed    := closed_of_empty

theorem linkIn_rootDirectory : linkIn.RootDirectory [] := by
  intro part hp
  have he : part = [] := List.prefix_nil.mp hp
  subst he
  exact ⟨rfl, _, rfl⟩

end Namespace

end WllOs.Fs
