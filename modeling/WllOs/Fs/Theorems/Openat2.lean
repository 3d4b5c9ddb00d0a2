import WllOs.Fs.Openat2
import WllOs.Fs.Theorems.Chroot

namespace WllOs.Fs

variable {N : Type} {fs : Namespace N} {path q host norm current base directory : HostPath N} {text : PathText N}
variable {how : OpenHow} {resolve : ResolveFlags} {logical : HostPath N} {parts : List (Part N)}

theorem pushInRoot_append (part : Part N) :
    pushInRoot base.length (base ++ path) part = base ++ Part.push path part := by
  cases part <;> simp [pushInRoot, Part.push]
  case dotdot =>
    cases path using List.reverseRecOn
    case nil => simp
    case append_singleton path c _ => simp [← List.append_assoc]

-- A path in the starting directory's own tree.
theorem resolvePathInRoot_eq : resolvePathInRoot base text = base ++ normalize [] text.parts := by
  have h (parts : List (Part N)) (path : HostPath N) :
      parts.foldl (pushInRoot base.length) (base ++ path) = base ++ normalize path parts := by
    induction parts generalizing path
    case nil => rfl
    case cons part parts hi => simpa [pushInRoot_append, normalize] using hi (Part.push path part)
  simpa [resolvePathInRoot] using h text.parts []

theorem normalize_append (h : .dotdot ∉ parts) : normalize base parts = base ++ normalize [] parts := by
  have hg (parts : List (Part N)) (path : HostPath N) (h : .dotdot ∉ parts) :
      normalize (base ++ path) parts = base ++ normalize path parts := by
    induction parts generalizing path
    case nil => rfl
    case cons part parts hi =>
      cases part
      case empty => exact hi path fun hm => h (List.mem_cons_of_mem _ hm)
      case dot => exact hi path fun hm => h (List.mem_cons_of_mem _ hm)
      case dotdot => simp at h
      case name c => simpa [normalize, Part.push] using hi (path ++ [c]) fun hm => h (List.mem_cons_of_mem _ hm)
  simpa using hg parts [] h

namespace Namespace

theorem openPath_getLast (h : fs.openPath path how = .ok q) : (fs.openHops path how).getLast? = some q := by
  rw [openPath] at h
  rw [openHops]
  split at h
  case isTrue hr =>
    rw [if_pos hr]
    split at h <;> cases h
    rfl
  case isFalse hr =>
    rw [if_neg hr]
    obtain ⟨norm, hn, h⟩ := Fallible.bind_ok h
    have hl := LinkTree.resolve_getLast (resolveParentSymlinksForLookup_eq ▸ hn)
    rw [parentHops, hn]
    simp only [Except.toOption, Option.elim_some]
    split at h
    case isTrue hp =>
      cases h
      simpa [hp] using hl
    case isFalse hp =>
      simp only [hp, Bool.false_eq_true, if_false]
      obtain ⟨link, hk, h⟩ := Fallible.bind_ok h
      cases link
      case none =>
        cases h
        simpa [finalComponentHops, vfs, hk, Except.map] using hl
      case some target =>
        cases hf : how.nofollow <;> simp only [hf, Bool.false_eq_true, if_true, if_false] at h
        case true => cases h
        case false =>
          have := LinkTree.resolve_getLast h
          simp only [finalComponentHops, vfs_link_some hk, Bool.false_eq_true, if_false]
          rw [List.getLast?_append, this]
          rfl

theorem pathContainsSymlink_false (h : fs.pathContainsSymlink current path = .ok false) :
    ∀ part, part ≠ [] → part <+: path → fs.lookupSymlinkTarget (current ++ part) = .ok none := by
  induction path generalizing current
  case nil => simp_all
  case cons c path hi =>
    have ⟨link, hl, h⟩ := Fallible.bind_ok h
    cases link
    case some => cases h
    case none =>
      intro part hn hp
      cases part
      case nil => exact absurd rfl hn
      case cons d part =>
        have ⟨hd, hr⟩ := List.cons_prefix_cons.mp hp
        subst hd
        by_cases he : part = []
        case pos => exact he ▸ hl
        case neg => simpa using hi h part he hr

theorem pathContainsSymlink_error {e : SysErrNo} (h : fs.pathContainsSymlink current path = .error e) : e = .ENOENT := by
  induction path generalizing current
  case nil => cases h
  case cons c path hi =>
    rw [pathContainsSymlink] at h
    cases hl : fs.lookupSymlinkTarget (current ++ [c]) with
    | error e' =>
      simp only [hl, bind, Except.bind] at h
      cases h
      rw [lookupSymlinkTarget] at hl
      split at hl
      case isTrue => cases hl; rfl
      case isFalse => split at hl <;> [cases hl; split at hl <;> cases hl]
    | ok link =>
      cases link <;> simp only [hl, bind, Except.bind] at h
      case none => exact hi h
      case some => cases h

-- Without links, the object at the path is opened and no link is followed.
theorem openHops_no_link (h : ∀ part, part <+: path → fs.lookupSymlinkTarget part = .ok none)
    (hq : fs.openPath path how = .ok q) : fs.openHops path how = [q] := by
  have hw : fs.vfs.hops .preserve maxLinks path = [path] ∧
      ∀ q, fs.vfs.resolve .preserve maxLinks path = .ok q → q = path :=
    LinkTree.resolve_no_link (fun part _ hp => vfs_link_none (h part hp)) maxLinks
  have hl := openPath_getLast hq
  rw [openHops] at hl ⊢
  split
  case isTrue hr => simpa [hr] using hl
  case isFalse hr =>
    simp only [hr, parentHops, hw.1] at hl ⊢
    cases hp : fs.resolveParentSymlinksForLookup path
    case error => simpa [hp, Except.toOption] using hl
    case ok norm =>
      have he : norm = path := hw.2 norm (resolveParentSymlinksForLookup_eq ▸ hp)
      subst he
      have hn : fs.finalComponentHops norm how.nofollow = [] := by
        simp [finalComponentHops, vfs_link_none (h norm (List.prefix_refl _))]
      simp only [hp, Except.toOption, Option.elim_some, hn, ite_self, List.append_nil] at hl ⊢
      simpa using hl

section Under

theorem under_lookup (hn : path ≠ []) : (fs.under directory).lookup path = fs.lookup (directory ++ path) := by
  have hd : (directory ++ path).dropLast = directory ++ path.dropLast := by
    rw [List.dropLast_append_of_ne_nil hn]
  have he : (directory ++ path).isEmpty = path.isEmpty := by cases path <;> simp_all
  simp only [lookup, missingPathErrno, pathExistsNonDir, parentPath, hd, he]
  rfl

theorem under_lookupSymlinkTarget :
    (fs.under directory).lookupSymlinkTarget path = fs.lookupSymlinkTarget (directory ++ path) := rfl

theorem readAlike {part : HostPath N} (hn : part ≠ []) (h : ∀ target,
    fs.lookupSymlinkTarget (directory ++ part) = .ok (some target) →
      symlinkTargetPath (directory ++ part) target = directory ++ symlinkTargetPath part target) :
    LinkTree.ReadAlike directory fs.vfs (fs.under directory).vfs part where
  link  := by
    simp only [vfs, under_lookupSymlinkTarget]
    cases hl : fs.lookupSymlinkTarget (directory ++ part) with
    | error => rfl
    | ok link =>
      cases link
      case none => rfl
      case some target => simp [Except.map, h target hl]
  enter := by simp only [vfs, under_lookup hn]

-- If all links lead to the same place from the directory as from the top, then so does the call.
theorem openPath_under (hr : fs.RootDirectory directory) (h : ∀ hop ∈ (fs.under directory).openHops path how, ∀ part, part <+: hop → ∀ target,
    fs.lookupSymlinkTarget (directory ++ part) = .ok (some target) →
      symlinkTargetPath (directory ++ part) target = directory ++ symlinkTargetPath part target) :
    fs.openPath (directory ++ path) how = ((fs.under directory).openPath path how).map (directory ++ ·) := by
  have hread {hops : List (HostPath N)} (hh : ∀ hop ∈ hops, hop ∈ (fs.under directory).openHops path how) :
      ∀ hop ∈ hops, ∀ part, part ≠ [] → part <+: hop → LinkTree.ReadAlike directory fs.vfs (fs.under directory).vfs part :=
    fun hop hm part hn hp => readAlike hn fun target ht => h hop (hh hop hm) part hp target ht
  have hloop : fs.vfs.loop = (fs.under directory).vfs.loop := rfl
  rw [openPath, openPath]
  cases hd : fs.removed (directory ++ path)
  case true =>
    have hd' : (fs.under directory).removed path = true := hd
    cases hc : how.create <;> simp [hd', Except.map]
  case false =>
    have hd' : (fs.under directory).removed path = false := hd
    simp only [hd', Bool.false_eq_true, if_false]
    simp only [openHops, hd', Bool.false_eq_true, if_false] at hread
    rw [resolveParentSymlinksForLookup_eq, resolveParentSymlinksForLookup_eq,
      LinkTree.resolve_shift hloop hr.plain (hread fun hop hm => List.mem_append_left _ hm)]
    cases hp : (fs.under directory).vfs.resolve .preserve maxLinks path
    case error => rfl
    case ok norm =>
      cases hpo : how.pathOnly
      case true => simp [Except.map, bind, Except.bind, pure, Except.pure]
      case false =>
        have hm : norm ∈ (fs.under directory).openHops path how := by
          rw [openHops, if_neg (by simp [hd']), parentHops]
          exact List.mem_append_left _ (LinkTree.resolve_mem_hops hp)
        simp only [Except.map, bind, Except.bind, Bool.false_eq_true, if_false, resolveFinalComponentSymlink,
          under_lookupSymlinkTarget]
        cases hl : fs.lookupSymlinkTarget (directory ++ norm) with
        | error => rfl
        | ok link =>
          cases link
          case none => rfl
          case some target =>
            cases hf : how.nofollow
            case true => rfl
            case false =>
              have ht := h norm hm norm (List.prefix_refl _) target hl
              simp only [Bool.false_eq_true, if_false, resolvePathSymlinks, ht]
              apply LinkTree.resolve_shift hloop hr.plain
              apply hread
              intro hop hm
              apply List.mem_append_right
              have hl' : (fs.under directory).lookupSymlinkTarget norm = .ok (some target) := hl
              simpa [resolveParentSymlinksForLookup_eq, hp, Except.toOption, hpo, finalComponentHops, vfs_link_some hl',
                hf] using hm

end Under

end Namespace

namespace OpenTask

variable [DecidableEq N] {task : OpenTask N}

theorem openat2_ok (h : task.openat2 fs text how = .ok q) : ∃ logical checked host,
    task.openat2ResolvePath fs text how.resolve = .ok (logical, checked) ∧
    task.magicPath how logical checked = .ok host ∧ fs.openPath host how = .ok q ∧
    task.openat2Hops fs text how = fs.openHops host how := by
  have ⟨(logical, checked), h₁, h⟩ := Fallible.bind_ok h
  have ⟨host, h₂, h₃⟩ := Fallible.bind_ok h
  exact ⟨logical, checked, host, h₁, h₂, h₃, by simp only [openat2Hops, h₁, h₂]⟩

-- What the checks of a path that passes say about it.
theorem openat2ResolvePath_ok (h : task.openat2ResolvePath fs text resolve = .ok (logical, host)) :
    logical = (if resolve.inRoot then resolvePathInRoot task.base text else resolvePath task.base text) ∧
    host = applyRoot task.root logical ∧
    (resolve.noSymlinks → task.magicLink logical = false ∧ fs.pathContainsSymlink [] host = .ok false) := by
  simp only [openat2ResolvePath] at h
  have ⟨_, h₁⟩ := Fallible.guard_ok h
  have ⟨_, h₂⟩ := Fallible.guard_ok h₁
  have ⟨_, h₃⟩ := Fallible.guard_ok h₂
  have ⟨hm, h₄⟩ := Fallible.guard_ok h₃
  have ⟨_, h₅⟩ := Fallible.guard_ok h₄
  by_cases hs : resolve.noSymlinks
  case neg =>
    rw [if_neg hs] at h₅
    cases h₅
    exact ⟨rfl, rfl, fun h => absurd h hs⟩
  case pos =>
    rw [if_pos hs] at h₅
    cases hc : fs.pathContainsSymlink [] (applyRoot task.root
      (if resolve.inRoot then resolvePathInRoot task.base text else resolvePath task.base text)) with
    | error => rw [hc] at h₅; cases h₅
    | ok found =>
      rw [hc] at h₅
      cases found <;> cases h₅
      exact ⟨rfl, rfl, fun _ => ⟨by simpa [hs] using hm, hc⟩⟩

-- The textual check refuses absolute paths, every `..`, and beneath the root directory every name.
theorem openat2ResolvePath_EXDEV (hb : resolve.beneath) (hi : ¬resolve.inRoot)
    (hx : resolve.noXdev → task.crossesMountpoint (applyRoot task.root (resolvePath task.base text)) = false) :
    task.openat2ResolvePath fs text resolve = .error .EXDEV ↔
      text.absolute ∨ .dotdot ∈ text.parts ∨ task.base = [] ∧ normalize [] text.parts ≠ [] := by
  simp only [openat2ResolvePath, hb, Bool.true_and, hi, Bool.false_eq_true, if_false]
  cases ha : text.absolute
  case true => simp
  case false =>
    by_cases hd : .dotdot ∈ text.parts
    case pos => simp [PathText.hasParentComponent, hd]
    case neg =>
      have he : resolvePath task.base text = task.base ++ normalize [] text.parts := by
        simpa only [resolvePath, ha, Bool.false_eq_true, if_false] using normalize_append hd
      have hu : pathIsUnderOrSame (resolvePath task.base text) task.base =
          !(task.base.isEmpty && !(normalize [] text.parts).isEmpty) := by
        rw [he, pathIsUnderOrSame]
        cases task.base <;> cases normalize [] text.parts <;> simp
      have hc : text.hasParentComponent = false := by simp [PathText.hasParentComponent, hd]
      simp only [hc, Bool.or_self, Bool.false_eq_true, if_false, hd, false_or, hu, Bool.not_not]
      split
      case isTrue ht =>
        have : text = ⟨false, [.empty]⟩ := by simpa [PathText.isEmpty] using ht
        simp [this, normalize, Part.push]
      case isFalse =>
        split
        case isTrue hn => simpa using hn
        case isFalse hn =>
          have hn : ¬(task.base = [] ∧ normalize [] text.parts ≠ []) := by simpa using hn
          simp only [hn, iff_false]
          split
          case isTrue => simp
          case isFalse =>
            split
            case isTrue hc => simp_all
            case isFalse =>
              split
              case isFalse => simp
              case isTrue =>
                split
                case h_1 hp => simp [Namespace.pathContainsSymlink_error hp]
                case h_2 => simp
                case h_3 => simp

-- A task that has opened the directory 0.
def inside : OpenTask Nat where
  root                := []
  base                := [0]
  magicLink _         := false
  execPath            := none
  crossesMountpoint _ := false

def openBeneath : OpenHow where
  create   := false
  nofollow := false
  pathOnly := false
  resolve  := ⟨true, false, false, false, false⟩
  valid    := by simp

end OpenTask

end WllOs.Fs
