import WllOs.Fs.Theorems.Mounts
import WllOs.Fs.VfsCalls
import WllOs.Library.Fallible

namespace WllOs.Fs

namespace Vfs

open Fallible

variable {V : Type} {vfs : Vfs V} {grants : Grants} {path : HostPath String} {changes : List (Change V)}

-- A change of a path for which the routines that pass it to the ext4 volume as it is find no vfat volume.
inductive Literal (vfs : Vfs V) (c : Change V) : Prop
  | memory (hv : vfs.mountedVfatBackend c.path = none) (hp : c.place = .memory c.path)
  | ext4 (hv : vfs.mountedVfatBackend c.path = none) (ht : ¬vfs.isTmpfsPath c.path) (hp : c.place = .ext4 c.path)

theorem Literal.holds {c : Change V} (h : vfs.Literal c) : (vfs.route c.path .literal).Holds c.place := by
  cases h
  case memory hv hp =>
    simp only [route, hv, hp]
    split
    case isTrue => exact rfl
    case isFalse => exact .inl rfl
  case ext4 hv ht hp =>
    simp only [route, hv, hp, if_neg ht]
    exact .inr rfl

theorem refuseVfat_ok {directory other : SysErrNo} (h : vfs.refuseVfat path directory other = .ok ()) :
    vfs.mountedVfatBackend path = none := by
  rw [refuseVfat] at h
  split at h
  case h_1 hv => exact hv
  case h_2 => split at h <;> cases h

theorem writable_ok (h : vfs.ensureMountWritable path = .ok ()) : ¬vfs.isReadonlyMountPath path := by
  intro hr
  rw [ensureMountWritable, if_pos hr] at h
  cases h

theorem literalPlace_ok {place : Place V} (h : vfs.literalPlace path = .ok place) :
    place = .memory path ∨ ¬vfs.isTmpfsPath path ∧ place = .ext4 path := by
  rw [literalPlace] at h
  split at h
  case isTrue => cases h; exact .inl rfl
  case isFalse =>
    have ⟨ht, h⟩ := guard_ok h
    split at h
    case isTrue => cases h; exact .inr ⟨ht, rfl⟩
    case isFalse => cases h

-- What the routines for paths that they pass on as they are do for each change: the path has been checked.
structure Checked (vfs : Vfs V) (c : Change V) : Prop where
  literal  : vfs.Literal c
  writable : ¬vfs.isReadonlyMountPath c.path

theorem removeFile_ok (h : vfs.removeFile grants path = .ok changes) :
    ∀ c ∈ changes, vfs.Checked c ∧ c.path = path ∧ ¬vfs.directoryAt c.place := by
  have ⟨_, h⟩ := guard_ok h
  have ⟨_, h⟩ := guard_ok h
  have ⟨_, hv, h⟩ := bind_ok h
  have ⟨_, hw, h⟩ := bind_ok h
  have ⟨_, _, h⟩ := bind_ok h
  have ⟨_, h⟩ := guard_ok h
  have ⟨_, _, h⟩ := bind_ok h
  have ⟨hd, h⟩ := guard_ok h
  have ⟨place, hp, h⟩ := bind_ok h
  intro c hc
  cases literalPlace_ok hp
  case inl he =>
    subst he
    cases h
    cases List.mem_singleton.mp hc
    exact ⟨⟨.memory (refuseVfat_ok hv) rfl, writable_ok hw⟩, rfl, hd⟩
  case inr he =>
    have ⟨ht, he⟩ := he
    subst he
    have ⟨hd, h⟩ := guard_ok h
    cases h
    cases List.mem_singleton.mp hc
    exact ⟨⟨.ext4 (refuseVfat_ok hv) ht rfl, writable_ok hw⟩, rfl, hd⟩

theorem removeDir_ok (h : vfs.removeDir grants path = .ok changes) :
    ∀ c ∈ changes, vfs.Checked c ∧ vfs.resolveParentSymlinksForLookup path = .ok c.path ∧
      ¬vfs.isMountpoint c.path := by
  have ⟨norm, hn, h⟩ := bind_ok h
  have ⟨_, h⟩ := guard_ok h
  have ⟨_, h⟩ := guard_ok h
  have ⟨hm, h⟩ := guard_ok h
  have ⟨_, hv, h⟩ := bind_ok h
  have ⟨_, hw, h⟩ := bind_ok h
  have ⟨_, _, h⟩ := bind_ok h
  have ⟨_, h⟩ := guard_ok h
  have ⟨_, _, h⟩ := bind_ok h
  have ⟨_, h⟩ := guard_ok h
  have ⟨place, hp, h⟩ := bind_ok h
  intro c hc
  cases literalPlace_ok hp
  case inl he =>
    subst he
    cases h
    cases List.mem_singleton.mp hc
    exact ⟨⟨.memory (refuseVfat_ok hv) rfl, writable_ok hw⟩, hn, hm⟩
  case inr he =>
    have ⟨ht, he⟩ := he
    subst he
    have ⟨_, h⟩ := guard_ok h
    have ⟨_, _, h⟩ := bind_ok h
    cases h
    cases List.mem_singleton.mp hc
    exact ⟨⟨.ext4 (refuseVfat_ok hv) ht rfl, writable_ok hw⟩, hn, hm⟩

-- The changes that a call makes at two paths, and what it has checked about the second one is what it says.
theorem renamePath_ok {old new : HostPath String} {noReplace : Bool}
    (h : vfs.renamePath grants old new noReplace = .ok changes) :
    ¬vfs.isReadonlyMountPath old ∧ ¬vfs.isReadonlyMountPath new ∧ vfs.mountedVfatBackend old = none ∧
      vfs.mountedVfatBackend (parentPath new) = none ∧
        (changes = [⟨old, .memory old⟩, ⟨new, .memory new⟩] ∨
          ¬vfs.isTmpfsPath old ∧ ¬vfs.isTmpfsPath new ∧ changes = [⟨old, .ext4 old⟩, ⟨new, .ext4 new⟩]) := by
  have ⟨_, h⟩ := guard_ok h
  have ⟨_, hvo, h⟩ := bind_ok h
  have ⟨_, hvn, h⟩ := bind_ok h
  have ⟨_, h⟩ := guard_ok h
  have ⟨_, hwo, h⟩ := bind_ok h
  have ⟨_, hwn, h⟩ := bind_ok h
  have ⟨ht, h⟩ := guard_ok h
  refine ⟨writable_ok hwo, writable_ok hwn, refuseVfat_ok hvo, refuseVfat_ok hvn, ?_⟩
  cases ite_ok h
  case inl h =>
    have ⟨_, h⟩ := h
    have ⟨_, h⟩ := guard_ok h
    have ⟨_, h⟩ := guard_ok h
    have ⟨_, _, h⟩ := bind_ok h
    have ⟨_, _, h⟩ := bind_ok h
    have ⟨_, _, h⟩ := bind_ok h
    cases h
    exact .inl rfl
  case inr h =>
    have ⟨_, h⟩ := h
    have ⟨hto, h⟩ := guard_ok h
    cases ite_ok h
    case inl h =>
      have ⟨_, h⟩ := h
      have ⟨_, h⟩ := guard_ok h
      have ⟨_, h⟩ := guard_ok h
      have ⟨_, h⟩ := guard_ok h
      have ⟨_, _, h⟩ := bind_ok h
      have ⟨_, _, h⟩ := bind_ok h
      have ⟨_, _, h⟩ := bind_ok h
      cases h
      exact .inr ⟨hto, not_not.mp ht ▸ hto, rfl⟩
    case inr h => cases h.2

theorem renameExchange_ok {old new : HostPath String}
    (h : vfs.renameExchange grants old new = .ok changes) (hn : changes ≠ []) :
    ¬vfs.isReadonlyMountPath old ∧ ¬vfs.isReadonlyMountPath new ∧ vfs.mountedVfatBackend old = none ∧
      vfs.mountedVfatBackend new = none ∧
        (changes = [⟨old, .memory old⟩, ⟨new, .memory new⟩] ∨
          ¬vfs.isTmpfsPath old ∧ ¬vfs.isTmpfsPath new ∧ changes = [⟨old, .ext4 old⟩, ⟨new, .ext4 new⟩]) := by
  cases ite_ok h
  case inl h => cases h.2; exact absurd rfl hn
  case inr h =>
    have ⟨_, h⟩ := h
    have ⟨_, h⟩ := guard_ok h
    have ⟨_, hvo, h⟩ := bind_ok h
    have ⟨_, hvn, h⟩ := bind_ok h
    have ⟨_, hwo, h⟩ := bind_ok h
    have ⟨_, hwn, h⟩ := bind_ok h
    have ⟨_, _, h⟩ := bind_ok h
    have ⟨_, _, h⟩ := bind_ok h
    have ⟨_, _, h⟩ := bind_ok h
    have ⟨_, _, h⟩ := bind_ok h
    have ⟨ht, h⟩ := guard_ok h
    refine ⟨writable_ok hwo, writable_ok hwn, refuseVfat_ok hvo, refuseVfat_ok hvn, ?_⟩
    dsimp only at h
    split at h
    case h_1 => cases h; exact .inl rfl
    case h_2 =>
      have ⟨hto, h⟩ := guard_ok h
      have ⟨_, h⟩ := guard_ok h
      cases h
      exact .inr ⟨hto, not_not.mp ht ▸ hto, rfl⟩
    case h_3 => cases h

theorem linkPath_ok {old new : HostPath String} {followOld : Bool}
    (h : vfs.linkPath grants old new followOld = .ok changes) :
    ¬vfs.isReadonlyMountPath new ∧ vfs.mountedVfatBackend old = none ∧
      vfs.mountedVfatBackend (parentPath new) = none ∧
        (changes = [⟨old, .memory old⟩, ⟨new, .memory new⟩] ∨
          ¬vfs.isTmpfsPath old ∧ ¬vfs.isTmpfsPath new ∧ ¬vfs.memExists old ∧
            ∃ target, (if followOld then vfs.resolveExt4Symlinks old else .ok old) = .ok target ∧
              changes = [⟨target, .ext4 target⟩, ⟨new, .ext4 new⟩]) := by
  have ⟨_, h⟩ := guard_ok h
  have ⟨_, hvo, h⟩ := bind_ok h
  have ⟨_, hvn, h⟩ := bind_ok h
  have ⟨_, h⟩ := guard_ok h
  have ⟨_, hwn, h⟩ := bind_ok h
  have ⟨_, _, h⟩ := bind_ok h
  have ⟨ht, h⟩ := guard_ok h
  refine ⟨writable_ok hwn, refuseVfat_ok hvo, refuseVfat_ok hvn, ?_⟩
  cases ite_ok h
  case inl h =>
    have ⟨_, h⟩ := h
    have ⟨_, h⟩ := guard_ok h
    have ⟨_, h⟩ := guard_ok h
    have ⟨_, h⟩ := guard_ok h
    have ⟨_, _, h⟩ := bind_ok h
    have ⟨_, h⟩ := guard_ok h
    cases h
    exact .inl rfl
  case inr h =>
    have ⟨hm, h⟩ := h
    have ⟨hto, h⟩ := guard_ok h
    have ⟨_, h⟩ := guard_ok h
    have ⟨_, h⟩ := guard_ok h
    have ⟨_, h⟩ := guard_ok h
    have ⟨_, h⟩ := guard_ok h
    have ⟨_, _, h⟩ := bind_ok h
    refine .inr ⟨hto, not_not.mp ht ▸ hto, hm, ?_⟩
    cases ite_ok h
    case inl h =>
      have ⟨hf, h⟩ := h
      have ⟨target, hr, h⟩ := bind_ok h
      cases h
      exact ⟨target, by rwa [if_pos hf], rfl⟩
    case inr h =>
      have ⟨hf, h⟩ := h
      cases h
      exact ⟨old, by rw [if_neg hf], rfl⟩

-- What is said of the place where an object is created: it depends on the parent.
inductive Created (vfs : Vfs V) (c : Change V) : Prop
  | memory (hp : c.place = .memory c.path)
  | ext4 (ht : ¬vfs.isTmpfsPath (parentPath c.path)) (hp : c.place = .ext4 c.path)

theorem create_ok {ext4Place : Place V} {missing : SysErrNo}
    (h : vfs.create grants path ext4Place missing = .ok changes)
    (he : ext4Place = .memory path ∨ ext4Place = .ext4 path) :
    ¬vfs.isReadonlyMountPath path ∧ vfs.mountedVfatBackend (parentPath path) = none ∧
      ∀ c ∈ changes, vfs.Created c ∧ c.path = path := by
  have ⟨_, hv, h⟩ := bind_ok h
  have ⟨_, hw, h⟩ := bind_ok h
  refine ⟨writable_ok hw, refuseVfat_ok hv, ?_⟩
  have ⟨_, h⟩ := when_ok h
  intro c hc
  cases ite_ok h
  case inl h =>
    cases h.2
    cases List.mem_singleton.mp hc
    exact ⟨.memory rfl, rfl⟩
  case inr h =>
    cases ite_ok h.2
    case inl h =>
      have ⟨hx, h⟩ := h
      cases h
      cases List.mem_singleton.mp hc
      have ⟨ht, _⟩ := Bool.and_eq_true_iff.mp hx
      cases he
      case inl he => exact ⟨.memory he, rfl⟩
      case inr he => exact ⟨.ext4 (by simpa using ht) he, rfl⟩
    case inr h =>
      cases ite_ok h.2
      case inl h =>
        cases h.2
        cases List.mem_singleton.mp hc
        exact ⟨.memory rfl, rfl⟩
      case inr h => cases h.2

-- The object at a path, or the one to which the ext4 volume follows a last link there.
def AtOrFollowed (vfs : Vfs V) (path : HostPath String) (follow : Bool) (c : Change V) : Prop :=
  c = ⟨path, .memory path⟩ ∨ ¬vfs.isTmpfsPath path ∧ c = ⟨path, .ext4 path⟩ ∨
    follow ∧ c.path ∈ vfs.followedFrom path ∧ c.place = .ext4 c.path

theorem ext4Target_ok {target : HostPath String} {follow : Bool} (hm : ¬(vfs.mem path).any (·.target?.isNone))
    (h : vfs.ext4Target path follow = .ok target) : vfs.AtOrFollowed path follow ⟨target, .ext4 target⟩ := by
  have ⟨ht, h⟩ := guard_ok h
  split at h
  case h_1 hd =>
    cases ite_ok h
    case inl h =>
      refine .inr (.inr ⟨h.1, ?_, rfl⟩)
      rw [followedFrom, if_neg hm, if_pos (by rw [hd]; rfl), h.2]
      exact List.mem_singleton_self _
    case inr h => cases h.2; exact .inr (.inl ⟨ht, rfl⟩)
  case h_2 => cases h; exact .inr (.inl ⟨ht, rfl⟩)
  case h_3 => cases h

theorem truncatePath_ok (h : vfs.truncatePath grants path = .ok changes) :
    ∃ target, (vfs.resolveParentSymlinksForLookup path >>= vfs.resolveFinalSymlink) = .ok target ∧
      ¬vfs.isReadonlyMountPath target ∧ ∀ c ∈ changes, vfs.AtOrFollowed target true c := by
  have ⟨norm, hn, h⟩ := bind_ok h
  have ⟨_, _, h⟩ := bind_ok h
  have ⟨_, hw, h⟩ := bind_ok h
  have ⟨_, _, h⟩ := bind_ok h
  have ⟨target, hr, h⟩ := bind_ok h
  have ⟨hw', h⟩ := when_ok h
  have hro : ¬vfs.isReadonlyMountPath target := by
    by_cases he : target = norm
    case pos => exact he ▸ writable_ok hw
    case neg => exact writable_ok (hw' he)
  refine ⟨target, by rw [hn]; exact hr, hro, fun c hc => ?_⟩
  dsimp only at h
  split at h
  case h_1 => cases h
  case h_2 =>
    have ⟨_, _, h⟩ := bind_ok h
    have ⟨_, _, h⟩ := bind_ok h
    cases h
    exact .inl (List.mem_singleton.mp hc)
  case h_3 => cases h
  case h_4 hd hf ho =>
    have ⟨extPath, he, h⟩ := bind_ok h
    have ⟨_, _, h⟩ := bind_ok h
    have ⟨_, _, h⟩ := bind_ok h
    cases h
    cases List.mem_singleton.mp hc
    refine ext4Target_ok ?_ he
    intro hm
    cases hx : vfs.mem target
    case none => rw [hx] at hm; cases hm
    case some node =>
      cases node
      case directory metadata => exact hd metadata hx
      case regular metadata => exact hf metadata hx
      case other metadata => exact ho metadata hx
      case symlink => rw [hx] at hm; cases hm

theorem setAttributesWith_ok {again : HostPath String → Except SysErrNo (List (Change V))} {follow : Bool}
    (h : vfs.setAttributesWith grants again path follow = .ok changes) :
    vfs.mountedVfatBackend path = none ∧ ¬vfs.isReadonlyMountPath path ∧
      ((∀ c ∈ changes, vfs.AtOrFollowed path follow c) ∨
        follow ∧ ∃ target, vfs.resolveFinalSymlink path = .ok target ∧ again target = .ok changes) := by
  have ⟨_, hv, h⟩ := bind_ok h
  have ⟨_, hw, h⟩ := bind_ok h
  have ⟨_, _, h⟩ := bind_ok h
  refine ⟨refuseVfat_ok hv, writable_ok hw, ?_⟩
  dsimp only at h
  split at h
  case h_1 hm =>
    cases ite_ok h
    case inl h =>
      have ⟨hf, h⟩ := h
      have ⟨target, hr, h⟩ := bind_ok h
      exact .inr ⟨(Bool.and_eq_true_iff.mp hf).2, target, hr, h⟩
    case inr h =>
      have ⟨_, h⟩ := h
      have h : changes = [⟨path, .memory path⟩] := by
        cases ite_ok h
        case inl h =>
          have ⟨_, _, h⟩ := bind_ok h.2
          have ⟨_, _, h⟩ := bind_ok h
          cases h
          rfl
        case inr h =>
          have ⟨_, _, h⟩ := bind_ok h.2
          have ⟨_, _, h⟩ := bind_ok h
          cases h
          rfl
      subst h
      exact .inl fun c hc => .inl (List.mem_singleton.mp hc)
  case h_2 hm =>
    have ⟨extPath, he, h⟩ := bind_ok h
    have ⟨_, _, h⟩ := bind_ok h
    have ⟨_, _, h⟩ := bind_ok h
    cases h
    refine .inl fun c hc => ?_
    cases List.mem_singleton.mp hc
    exact ext4Target_ok (by simp [hm]) he

theorem setAttributes_ok {follow : Bool} (h : vfs.setAttributes grants path follow = .ok changes) :
    ∃ target, (target = path ∨ follow ∧ vfs.resolveFinalSymlink path = .ok target) ∧
      vfs.mountedVfatBackend target = none ∧ ¬vfs.isReadonlyMountPath target ∧
        ∀ c ∈ changes, vfs.AtOrFollowed target follow c := by
  have ⟨hv, hw, h⟩ := setAttributesWith_ok h
  cases h
  case inl h => exact ⟨path, .inl rfl, hv, hw, h⟩
  case inr h =>
    have ⟨hf, target, hr, h⟩ := h
    have ⟨hv, hw, h⟩ := setAttributesWith_ok h
    refine ⟨target, .inr ⟨hf, hr⟩, hv, hw, ?_⟩
    cases h
    case inl h => exact hf ▸ h
    case inr h =>
      have ⟨_, _, _, h⟩ := h
      cases h

theorem setXattr_ok {follow : Bool} (h : vfs.setXattr grants path follow = .ok changes) :
    ∃ target,
      (do let norm ← vfs.resolveParentSymlinksForLookup path
          if follow then vfs.resolveFinalSymlink norm else pure norm) = .ok target ∧
      vfs.mountedVfatBackend target = none ∧ ¬vfs.isReadonlyMountPath target ∧
        changes = [⟨target, .memory target⟩] := by
  have ⟨norm, hn, h⟩ := bind_ok h
  have ⟨_, h⟩ := guard_ok h
  have ⟨_, _, h⟩ := bind_ok h
  have ⟨target, hr, h⟩ : ∃ target, (if follow then vfs.resolveFinalSymlink norm else pure norm) = .ok target ∧
      (do vfs.refuseVfat target .EROFS .EROFS
          vfs.ensureMountWritable target
          if vfs.memExists target then return [⟨target, .memory target⟩]
          if vfs.isTmpfsPath target then throw (vfs.missingPathErrno target)
          throw (if (vfs.disk (vfs.ext4LookupPath target)).isSome then .EOPNOTSUPP
            else vfs.missingPathErrno target)) = Except.ok changes := by
    cases ite_ok h
    case inl h =>
      have ⟨hf, h⟩ := h
      have ⟨target, hr, h⟩ := bind_ok h
      exact ⟨target, by rwa [if_pos hf], h⟩
    case inr h =>
      have ⟨hf, h⟩ := h
      exact ⟨norm, by rw [if_neg hf]; rfl, h⟩
  have ⟨_, hv, h⟩ := bind_ok h
  have ⟨_, hw, h⟩ := bind_ok h
  refine ⟨target, by rw [hn]; exact hr, refuseVfat_ok hv, writable_ok hw, ?_⟩
  cases ite_ok h
  case inl h => cases h.2; rfl
  case inr h =>
    have ⟨_, h⟩ := guard_ok h.2
    cases h

theorem holds_memory (hv : vfs.mountedVfatBackend path = none)
    (he : vfs.isTmpfsPath path ∨ vfs.mountedExt4BackendPath path = none) :
    (vfs.route path .translated).Holds (.memory path) := by
  simp only [route, hv]
  split
  case isTrue => exact rfl
  case isFalse ht => rw [he.resolve_left ht]; exact .inl rfl

theorem holds_ext4 (hv : vfs.mountedVfatBackend path = none) (ht : ¬vfs.isTmpfsPath path) :
    (vfs.route path .translated).Holds (.ext4 (vfs.ext4LookupPath path)) := by
  simp only [route, hv, if_neg ht, ext4LookupPath]
  cases vfs.mountedExt4BackendPath path
  case none => exact .inr rfl
  case some => exact rfl

-- An object that `open_path` creates: its place depends on the parent.
inductive OpenCreated (vfs : Vfs V) (path : HostPath String) (c : Change V) : Prop
  | memory (he : vfs.isTmpfsPath (parentPath path) ∨ vfs.mountedExt4BackendPath (parentPath path) = none)
    (h : c = ⟨path, .memory path⟩)
  | ext4 (ht : ¬vfs.isTmpfsPath (parentPath path)) (h : c = ⟨path, .ext4 (vfs.ext4LookupPath path)⟩)

theorem openCreate_ok (h : vfs.openCreate grants path = .ok changes) : ∀ c ∈ changes, vfs.OpenCreated path c := by
  rw [openCreate] at h
  have ⟨_, h⟩ := when_ok h
  have hmem {d : Bool} (hd : (!(!vfs.isTmpfsPath (parentPath path) &&
      (vfs.mountedExt4BackendPath (parentPath path)).isSome) && d) = true) :
      vfs.isTmpfsPath (parentPath path) ∨ vfs.mountedExt4BackendPath (parentPath path) = none := by
    cases ht : vfs.isTmpfsPath (parentPath path)
    case true => exact .inl rfl
    case false => cases he : vfs.mountedExt4BackendPath (parentPath path) <;> simp [ht, he] at hd ⊢
  intro c hc
  cases ite_ok h
  case inl h =>
    have ⟨hd, h⟩ := h
    cases h
    exact .memory (hmem (Bool.and_eq_true_iff.mp hd).1) (List.mem_singleton.mp hc)
  case inr h =>
    cases ite_ok h.2
    case inl h =>
      have ⟨hx, h⟩ := h
      cases h
      have ⟨ht, _⟩ := Bool.and_eq_true_iff.mp hx
      exact .ext4 (by simpa using ht) (List.mem_singleton.mp hc)
    case inr h =>
      cases ite_ok h.2
      case inl h =>
        have ⟨hd, h⟩ := h
        cases h
        exact .memory (hmem hd) (List.mem_singleton.mp hc)
      case inr h => cases h.2

theorem openObject_ok {flags : OpenFlags} {removed : Bool} (hv : vfs.mountedVfatBackend path = none)
    (h : vfs.openObject grants path flags removed = .ok changes) :
    ∀ c ∈ changes, c.path = path ∧ (flags.write ∨ flags.create) ∧
      ((vfs.route path .translated).Holds c.place ∨ flags.create ∧ vfs.OpenCreated path c) := by
  intro c hc
  simp only [openObject] at h
  split at h
  case h_1 hm =>
    have ⟨_, h⟩ := guard_ok h
    have ⟨_, h⟩ := guard_ok h
    have ⟨_, _, h⟩ := bind_ok h
    have ⟨_, _, h⟩ := bind_ok h
    split at h
    case isFalse => cases h; cases hc
    case isTrue hw =>
      cases h
      cases List.mem_singleton.mp hc
      refine ⟨rfl, .inl hw, .inl (holds_memory hv ?_)⟩
      cases ht : vfs.isTmpfsPath path
      case true => exact .inl rfl
      case false => cases he : vfs.mountedExt4BackendPath path <;> simp [ht, he] at hm ⊢
  case h_2 =>
    have ⟨_, h⟩ := guard_ok h
    have ⟨_, h⟩ := guard_ok h
    have ⟨_, _, h⟩ := bind_ok h
    have ⟨_, _, h⟩ := bind_ok h
    cases h
    cases hc
  case h_3 =>
    cases ite_ok h
    case inl h =>
      have ⟨_, h⟩ := guard_ok h.2
      have ⟨_, _, h⟩ := bind_ok h
      cases h
      cases hc
    case inr h =>
      have ⟨_, h⟩ := guard_ok h.2
      split at h
      case h_1 hx =>
        have ⟨_, h⟩ := guard_ok h
        have ⟨_, _, h⟩ := bind_ok h
        have ht : ¬vfs.isTmpfsPath path := by
          intro ht
          rw [if_pos ht] at hx
          split at hx <;> cases hx
        split at h
        case isFalse => cases h; cases hc
        case isTrue hw =>
          cases h
          cases List.mem_singleton.mp hc
          exact ⟨rfl, .inl hw, .inl (holds_ext4 hv ht)⟩
      case h_2 =>
        cases ite_ok h
        case inl h =>
          have ⟨hw, h⟩ := h
          have hcr := openCreate_ok h c hc
          refine ⟨?_, .inr hw, .inr ⟨hw, hcr⟩⟩
          cases hcr
          case memory he => rw [he]
          case ext4 he => rw [he]
        case inr h => cases h.2

theorem openPath_ok {flags : OpenFlags} (h : vfs.openPath grants path flags = .ok changes) :
    ∀ c ∈ changes, vfs.openNorm path flags = .ok c.path ∧ vfs.mountedVfatBackend c.path = none ∧
      ¬vfs.isReadonlyMountPath c.path ∧
        ((vfs.route c.path .translated).Holds c.place ∨ flags.create ∧ vfs.OpenCreated c.path c) := by
  intro c hc
  have ⟨_, h⟩ := guard_ok h
  have ⟨_, h⟩ := guard_ok h
  cases ite_ok h
  case inl h =>
    have ⟨_, h⟩ := h
    have ⟨_, h⟩ := guard_ok h
    have hnil : changes = [] := by
      cases ite_ok h
      all_goals
        rename_i h
        have ⟨_, _, h⟩ := bind_ok h.2
        have ⟨_, h⟩ := guard_ok h
        cases ite_ok h
      all_goals
        rename_i h
        have ⟨_, _, h⟩ := bind_ok h.2
        have ⟨_, h⟩ := guard_ok h
        cases h
        rfl
    rw [hnil] at hc
    cases hc
  case inr h =>
    have ⟨norm, hn, h⟩ := bind_ok h.2
    have ⟨hw, h⟩ := guard_ok h
    cases ite_ok h
    case inl h =>
      have ⟨_, h⟩ := guard_ok h.2
      have ⟨_, h⟩ := guard_ok h
      cases h
      cases hc
    case inr h =>
      have h := h.2
      dsimp only at h
      split at h
      case h_1 =>
        have ⟨_, h⟩ := guard_ok h
        have ⟨_, _, h⟩ := bind_ok h
        have ⟨_, h⟩ := guard_ok h
        cases h
        cases hc
      case h_2 hv =>
        cases ite_ok h
        case inl h =>
          have ⟨_, h⟩ := guard_ok h.2
          cases ite_ok h
          case inl h =>
            have ⟨_, _, h⟩ := bind_ok h.2
            cases h
            cases hc
          case inr h =>
            have ⟨_, h⟩ := guard_ok h.2
            cases h
        case inr h =>
          have ⟨he, hf, hp⟩ := openObject_ok hv h.2 c hc
          rw [he]
          refine ⟨hn, hv, fun hro => hw ?_, hp⟩
          cases hf <;> simp [*]

end Vfs

namespace VfsCall

open Vfs

variable {V : Type} {vfs : Vfs V} {grants : Grants} {call : VfsCall} {path : HostPath String} {c : Change V}

theorem mem_changes {x : Except SysErrNo (List (Change V))} (h : c ∈ (CallOutcome.of x).changes) :
    ∃ changes, x = .ok changes ∧ c ∈ changes := by
  cases x
  case error => cases h
  case ok changes => exact ⟨changes, rfl, h⟩

theorem mem_toList {x : Except SysErrNo (HostPath String)} (h : x = .ok path) : path ∈ x.toOption.toList := by
  rw [h]
  exact List.mem_singleton_self _

section Simple

variable (hi : TableInv vfs.mounts) (hs : call.Simple vfs)

include hi hs

-- A change of a path that the call names.
theorem Simple.admits (hp : c.path ∈ call.paths vfs) (hr : (vfs.route c.path call.routing).Holds c.place)
    (hw : ¬vfs.isReadonlyMountPath c.path)
    (hd : call.displaces → vfs.directoryAt c.place → ¬vfs.isMountpoint c.path) : call.Admits vfs c where
  routed    := (route_eq_iff hi c.path call.routing).mpr (hs.straight c.path (List.mem_append_left _ hp)) ▸ hr
  writable  := not_readOnly hi hw (hs.rooted c.path hp)
  displaced := hd

-- A change of a path to which the ext4 volume follows a link.
theorem Simple.admits_followed (hl : call.routing = .literal) (hp : c.path ∈ call.followed vfs)
    (hc : c.place = .ext4 c.path) (hd : ¬call.displaces) : call.Admits vfs c := by
  have ⟨hw, ht, hv⟩ := hs.followed c.path hp
  have hr := (Literal.ext4 (mountedVfatBackend_none.mpr hv) ht hc : vfs.Literal c).holds
  have hst := hs.straight c.path (List.mem_append_right _ hp)
  rw [hl] at hst
  exact ⟨(route_eq_iff hi c.path .literal).mpr hst ▸ hr, hw, fun h => absurd h hd⟩

theorem Simple.admits_atOrFollowed {target : HostPath String} {follow : Bool} (hl : call.routing = .literal)
    (hd : ¬call.displaces) (hp : target ∈ call.paths vfs) (hv : vfs.mountedVfatBackend target = none)
    (hw : ¬vfs.isReadonlyMountPath target)
    (hf : follow → ∀ path ∈ vfs.followedFrom target, path ∈ call.followed vfs)
    (h : vfs.AtOrFollowed target follow c) : call.Admits vfs c := by
  have hat (hc : c.path = target) (hlit : vfs.Literal c) : call.Admits vfs c := by
    subst hc
    exact hs.admits hi hp (hl ▸ hlit.holds) hw fun h => absurd h hd
  cases h
  case inl h => subst h; exact hat rfl (.memory hv rfl)
  case inr h =>
    cases h
    case inl h =>
      have ⟨ht, h⟩ := h
      subst h
      exact hat rfl (.ext4 hv ht rfl)
    case inr h =>
      have ⟨hfo, hm, hc⟩ := h
      exact hs.admits_followed hi hl (hf hfo c.path hm) hc hd

-- An object that is created in memory or on the ext4 volume, as its parent is.
theorem Simple.admits_created (hl : call.routing = .literal) (hd : ¬call.displaces)
    (hp : c.path ∈ call.paths vfs) (hcr : c.path ∈ call.created vfs)
    (hv : vfs.mountedVfatBackend (parentPath c.path) = none) (hw : ¬vfs.isReadonlyMountPath c.path)
    (h : vfs.Created c) : call.Admits vfs c := by
  have ⟨hm, hvol⟩ := hs.created c.path hcr
  have hv := mountedVfat_parent hi hm hv
  refine hs.admits hi hp (hl ▸ Literal.holds ?_) hw fun h => absurd h hd
  cases h
  case memory he => exact .memory hv he
  case ext4 ht he => exact .ext4 hv (isTmpfsPath_parent hi hm hvol ▸ ht) he

-- Objects at two paths.
theorem Simple.admits_pair {old new : HostPath String} {changes : List (Change V)} (hl : call.routing = .literal)
    (hold : old ∈ call.paths vfs) (hnew : new ∈ call.paths vfs)
    (hwo : ¬vfs.isReadonlyMountPath old) (hwn : ¬vfs.isReadonlyMountPath new)
    (hvo : vfs.mountedVfatBackend old = none) (hvn : vfs.mountedVfatBackend new = none)
    (hmo : ¬vfs.isMountpoint old) (hmn : ¬vfs.isMountpoint new)
    (h : changes = [⟨old, .memory old⟩, ⟨new, .memory new⟩] ∨
      ¬vfs.isTmpfsPath old ∧ ¬vfs.isTmpfsPath new ∧ changes = [⟨old, .ext4 old⟩, ⟨new, .ext4 new⟩])
    (hc : c ∈ changes) : call.Admits vfs c := by
  cases h
  case inl h =>
    subst h
    cases List.mem_cons.mp hc
    case inl he => subst he; exact hs.admits hi hold (hl ▸ (Literal.memory hvo rfl).holds) hwo fun _ _ => hmo
    case inr hc =>
      cases List.mem_singleton.mp hc
      exact hs.admits hi hnew (hl ▸ (Literal.memory hvn rfl).holds) hwn fun _ _ => hmn
  case inr h =>
    have ⟨hto, htn, h⟩ := h
    subst h
    cases List.mem_cons.mp hc
    case inl he => subst he; exact hs.admits hi hold (hl ▸ (Literal.ext4 hvo hto rfl).holds) hwo fun _ _ => hmo
    case inr hc =>
      cases List.mem_singleton.mp hc
      exact hs.admits hi hnew (hl ▸ (Literal.ext4 hvn htn rfl).holds) hwn fun _ _ => hmn

end Simple

theorem openPath_admits {flags : OpenFlags} (hi : TableInv vfs.mounts) (hs : (openPath path flags).Simple vfs)
    (h : c ∈ (vfs.call grants (openPath path flags)).changes) : (openPath path flags).Admits vfs c := by
  have ⟨_, h, hc⟩ := mem_changes h
  have ⟨hn, hv, hw, hp⟩ := openPath_ok h c hc
  refine hs.admits hi (mem_toList hn) ?_ hw nofun
  cases hp
  case inl hr => exact hr
  case inr hp =>
    have ⟨hcr, hp⟩ := hp
    have ⟨hm, hvol⟩ := hs.created c.path (by rw [created, if_pos hcr]; exact mem_toList hn)
    have ht := isTmpfsPath_parent hi hm hvol
    cases hp
    case memory he heq =>
      rw [ht, mountedExt4BackendPath, mountedExt4_parent hm] at he
      rw [heq]
      refine holds_memory hv (he.imp_right fun he => ?_)
      rw [mountedExt4BackendPath, Option.map_eq_none_iff.mp he]
      rfl
    case ext4 hnt heq =>
      rw [heq]
      exact holds_ext4 hv (ht ▸ hnt)

theorem removeFile_admits (hi : TableInv vfs.mounts) (hs : (removeFile path).Simple vfs)
    (h : c ∈ (vfs.call grants (removeFile path)).changes) : (removeFile path).Admits vfs c := by
  have ⟨_, h, hc⟩ := mem_changes h
  have ⟨hch, hp, hd⟩ := removeFile_ok h c hc
  exact hs.admits hi (hp ▸ List.mem_singleton_self _) hch.literal.holds hch.writable fun _ h => absurd h hd

theorem removeDir_admits (hi : TableInv vfs.mounts) (hs : (removeDir path).Simple vfs)
    (h : c ∈ (vfs.call grants (removeDir path)).changes) : (removeDir path).Admits vfs c := by
  have ⟨_, h, hc⟩ := mem_changes h
  have ⟨hch, hp, hm⟩ := removeDir_ok h c hc
  exact hs.admits hi (mem_toList hp) hch.literal.holds hch.writable fun _ _ => hm

theorem renamePath_admits {old new : HostPath String} {noReplace : Bool} (hi : TableInv vfs.mounts)
    (hs : (renamePath old new noReplace).Simple vfs)
    (h : c ∈ (vfs.call grants (renamePath old new noReplace)).changes) :
    (renamePath old new noReplace).Admits vfs c := by
  have ⟨_, h, hc⟩ := mem_changes h
  have ⟨hwo, hwn, hvo, hvn, hp⟩ := renamePath_ok h
  have hmo := hs.moved old (.head _)
  have hmn := hs.moved new (.tail _ (.head _))
  exact hs.admits_pair hi rfl (.head _) (.tail _ (.head _)) hwo hwn hvo (mountedVfat_parent hi hmn hvn) hmo hmn hp hc

theorem renameExchange_admits {old new : HostPath String} (hi : TableInv vfs.mounts)
    (hs : (renameExchange old new).Simple vfs) (h : c ∈ (vfs.call grants (renameExchange old new)).changes) :
    (renameExchange old new).Admits vfs c := by
  have ⟨_, h, hc⟩ := mem_changes h
  have ⟨hwo, hwn, hvo, hvn, hp⟩ := renameExchange_ok h (List.ne_nil_of_mem hc)
  have hmo := hs.moved old (.head _)
  have hmn := hs.moved new (.tail _ (.head _))
  exact hs.admits_pair hi rfl (.head _) (.tail _ (.head _)) hwo hwn hvo hvn hmo hmn hp hc

theorem linkPath_admits {old new : HostPath String} {followOld : Bool} (hi : TableInv vfs.mounts)
    (hs : (linkPath old new followOld).Simple vfs)
    (h : c ∈ (vfs.call grants (linkPath old new followOld)).changes) :
    (linkPath old new followOld).Admits vfs c := by
  have ⟨_, h, hc⟩ := mem_changes h
  have ⟨hwn, hvo, hvn, hp⟩ := linkPath_ok h
  have hro := hs.source old new followOld rfl
  have hvn := mountedVfat_parent hi (hs.moved new (.head _)) hvn
  have hold (hc : c.path = old) (hlit : vfs.Literal c) : (linkPath old new followOld).Admits vfs c := by
    subst hc
    have hst := hs.straight c.path (List.mem_append_left _ (.head _))
    exact ⟨(route_eq_iff hi c.path .literal).mpr hst ▸ hlit.holds, hro, nofun⟩
  have hnew (hc : c.path = new) (hlit : vfs.Literal c) : (linkPath old new followOld).Admits vfs c := by
    subst hc
    exact hs.admits hi (.tail _ (.head _)) hlit.holds hwn nofun
  cases hp
  case inl h =>
    subst h
    cases List.mem_cons.mp hc
    case inl he => subst he; exact hold rfl (.memory hvo rfl)
    case inr hc => cases List.mem_singleton.mp hc; exact hnew rfl (.memory hvn rfl)
  case inr h =>
    have ⟨hto, htn, hm, target, ht, h⟩ := h
    subst h
    cases List.mem_cons.mp hc
    case inr hc => cases List.mem_singleton.mp hc; exact hnew rfl (.ext4 hvn htn rfl)
    case inl he =>
      subst he
      cases followOld
      case false => cases ht; exact hold rfl (.ext4 hvo hto rfl)
      case true =>
        refine hs.admits_followed hi rfl ?_ rfl nofun
        rw [followed, if_neg hm]
        exact mem_toList ht

theorem createNew_admits {norm : HostPath String} {ext4Place : Place V} {missing : SysErrNo}
    (hi : TableInv vfs.mounts) (hs : call.Simple vfs) (hl : call.routing = .literal) (hd : ¬call.displaces)
    (hp : norm ∈ call.paths vfs) (hcr : norm ∈ call.created vfs)
    (he : ext4Place = .memory norm ∨ ext4Place = .ext4 norm)
    (h : c ∈ (vfs.createNew grants norm ext4Place missing).changes) : call.Admits vfs c := by
  rw [createNew] at h
  split at h
  case isTrue => cases h
  case isFalse =>
    have ⟨_, h, hc⟩ := mem_changes h
    have ⟨hw, hv, hall⟩ := create_ok h he
    have ⟨hcreated, hpath⟩ := hall c hc
    subst hpath
    exact hs.admits_created hi hl hd hp hcr hv hw hcreated

theorem createSymlink_admits (hi : TableInv vfs.mounts) (hs : (createSymlink path).Simple vfs)
    (h : c ∈ (vfs.call grants (createSymlink path)).changes) : (createSymlink path).Admits vfs c := by
  have ⟨_, h, hc⟩ := mem_changes h
  have ⟨_, h⟩ := Fallible.guard_ok h
  have ⟨hw, hv, hall⟩ := create_ok h (.inr rfl)
  have ⟨hcreated, hpath⟩ := hall c hc
  subst hpath
  exact hs.admits_created hi rfl nofun (.head _) (.head _) hv hw hcreated

theorem createDir_admits (hi : TableInv vfs.mounts) (hs : (createDir path).Simple vfs)
    (h : c ∈ (vfs.call grants (createDir path)).changes) : (createDir path).Admits vfs c := by
  simp only [Vfs.call, Vfs.createDir] at h
  split at h
  case h_1 => cases h
  case h_2 norm hn => exact createNew_admits hi hs rfl nofun (mem_toList hn) (mem_toList hn) (.inr rfl) h

theorem truncatePath_admits (hi : TableInv vfs.mounts) (hs : (truncatePath path).Simple vfs)
    (h : c ∈ (vfs.call grants (truncatePath path)).changes) : (truncatePath path).Admits vfs c := by
  have ⟨_, h, hc⟩ := mem_changes h
  have ⟨target, hr, hw, hall⟩ := truncatePath_ok h
  have hm : target ∈ (truncatePath path).paths vfs := mem_toList hr
  have hv := mountedVfatBackend_none.mpr (hs.linked target hm)
  exact hs.admits_atOrFollowed hi rfl nofun hm hv hw (fun _ p hp => List.mem_flatMap.mpr ⟨target, hm, hp⟩) (hall c hc)

theorem setAttributes_admits {follow : Bool} (hi : TableInv vfs.mounts) (hs : (setAttributes path follow).Simple vfs)
    (h : c ∈ (vfs.call grants (setAttributes path follow)).changes) : (setAttributes path follow).Admits vfs c := by
  have ⟨_, h, hc⟩ := mem_changes h
  have ⟨target, ht, hv, hw, hall⟩ := setAttributes_ok h
  have hm : target ∈ (setAttributes path follow).paths vfs := by
    cases ht
    case inl he => exact he ▸ .head _
    case inr ht => exact .tail _ (by rw [if_pos ht.1]; exact mem_toList ht.2)
  refine hs.admits_atOrFollowed hi rfl nofun hm hv hw (fun hf p hp => ?_) (hall c hc)
  rw [followed, if_pos hf]
  exact List.mem_flatMap.mpr ⟨target, hm, hp⟩

theorem setXattr_admits {follow : Bool} (hi : TableInv vfs.mounts) (hs : (setXattr path follow).Simple vfs)
    (h : c ∈ (vfs.call grants (setXattr path follow)).changes) : (setXattr path follow).Admits vfs c := by
  have ⟨_, h, hc⟩ := mem_changes h
  have ⟨target, hr, hv, hw, he⟩ := setXattr_ok h
  subst he
  cases List.mem_singleton.mp hc
  refine hs.admits hi (mem_toList hr) ?_ hw nofun
  simp only [routing, route, hv]
  split
  case isTrue => exact rfl
  case isFalse => exact .inl rfl

theorem Simple.admits_all (hi : TableInv vfs.mounts) (hs : call.Simple vfs)
    (h : c ∈ (vfs.call grants call).changes) : call.Admits vfs c := by
  cases call
  case openPath => exact openPath_admits hi hs h
  case removeFile => exact removeFile_admits hi hs h
  case removeDir => exact removeDir_admits hi hs h
  case renamePath => exact renamePath_admits hi hs h
  case renameExchange => exact renameExchange_admits hi hs h
  case linkPath => exact linkPath_admits hi hs h
  case createSymlink => exact createSymlink_admits hi hs h
  case createDir => exact createDir_admits hi hs h
  case createRegular => exact createNew_admits hi hs rfl nofun (.head _) (.head _) (.inr rfl) h
  case createSpecial => exact createNew_admits hi hs rfl nofun (.head _) (.head _) (.inl rfl) h
  case truncatePath => exact truncatePath_admits hi hs h
  case setAttributes => exact setAttributes_admits hi hs h
  case setXattr => exact setXattr_admits hi hs h

-- A whiteout that is cleared before any check.
theorem createNew_cleared {norm : HostPath String} {ext4Place : Place V} {missing : SysErrNo}
    (h : path ∈ (vfs.createNew grants norm ext4Place missing).cleared) : path = norm ∧ vfs.removed norm := by
  rw [createNew] at h
  split at h
  case isTrue => cases h
  case isFalse =>
    dsimp only at h
    split at h
    case isTrue hr => cases h; exact ⟨rfl, hr⟩
    case isFalse => cases h

theorem not_cleared {x : Except SysErrNo (List (Change V))} : ¬path ∈ (CallOutcome.of x).cleared := by
  cases x <;> exact nofun

theorem Simple.cleared (hs : call.Simple vfs) (h : path ∈ (vfs.call grants call).cleared) : ¬vfs.ReadOnly path := by
  have hnew {norm : HostPath String} {ext4Place : Place V} {missing : SysErrNo}
      (hm : vfs.removed norm → norm ∈ call.clears vfs)
      (h : path ∈ (vfs.createNew grants norm ext4Place missing).cleared) : ¬vfs.ReadOnly path := by
    have ⟨he, hr⟩ := createNew_cleared h
    exact he ▸ hs.clears norm (hm hr)
  cases call
  case createDir =>
    simp only [Vfs.call, Vfs.createDir] at h
    split at h
    case h_1 => exact absurd h not_cleared
    case h_2 hn => exact hnew (fun hr => List.mem_filter.mpr ⟨mem_toList hn, hr⟩) h
  case createRegular => exact hnew (fun hr => List.mem_filter.mpr ⟨.head _, hr⟩) h
  case createSpecial => exact hnew (fun hr => List.mem_filter.mpr ⟨.head _, hr⟩) h
  all_goals exact absurd h not_cleared

end VfsCall

namespace Vfs

open Mount

variable {V : Type} {vfs : Vfs V}

-- A memory file system with a regular file in its root directory.
def oneFile : Vfs Empty where
  mounts           := [⟨[], [], .root, false⟩]
  removed _        := false
  mem path         :=
    if path = [] then some (.directory ⟨1, 0o755, 0, 0⟩)
    else if path = ["f"] then some (.regular ⟨2, 0o644, 0, 0⟩)
    else none
  disk _           := none
  volume _ _       := .error .ENOENT
  loopDevice _     := false
  procfsLinkSource _ := false

theorem oneFile_reachable : oneFile.Reachable :=
  .boot rfl

-- The same after a remount of the root directory that makes it read-only.
def remountRoot : MountRequest Empty where
  source        := ⟨none, false, false, .error .ENOENT⟩
  logicalTarget := []
  hostTarget    := []
  fstype        := .tmpfs
  flags         := MS_REMOUNT ||| MS_RDONLY

def oneFileReadOnly : Vfs Empty :=
  (oneFile.mountFs (fun _ => ⟨3, 0o755, 0, 0⟩) remountRoot).2

def allGrants : Grants where
  search _   := .ok ()
  create _   := .ok ()
  delete _ _ := .ok ()
  modify _   := .ok ()
  empty _    := .ok ()

end Vfs

end WllOs.Fs
