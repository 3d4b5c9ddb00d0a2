import WllOs.Fs.Access
import WllOs.Fs.Theorems.Chroot

namespace WllOs.Fs

variable {N : Type} {fs : Namespace N} {directory path norm parent part current d : HostPath N}
variable {parts : List (Part N)} {node : Node N} {metadata : Metadata} {identity : CredentialIdentity}
variable {task : AccessTask N} {call : AccessCall N} {final : FinalLink} {links : Nat} {mode : AccessMode}

namespace Namespace

theorem posixLeg_plain (hp : fs.vfs.Plain directory) : ∀ d ∈ fs.posixLeg directory parts, fs.vfs.Plain d := by
  induction parts generalizing directory
  case nil => intro d hd; cases hd
  case cons part parts hi =>
    intro d hd
    cases part <;> simp only [posixLeg, List.mem_cons] at hd
    case empty => exact hi hp d hd
    case dot => exact hd.elim (· ▸ hp) (hi hp d)
    case dotdot => exact hd.elim (· ▸ hp) (hi (hp.of_prefix (List.dropLast_prefix _)) d)
    case name c =>
      refine hd.elim (· ▸ hp) fun hd => ?_
      cases hl : fs.lookupSymlinkTarget (directory ++ [c]) with
      | error => simp [hl] at hd
      | ok link =>
        cases link
        case some => simp [hl] at hd
        case none =>
          cases he : fs.vfs.enter (directory ++ [c]) with
          | error => simp [hl, he] at hd
          | ok => exact hi (hp.snoc (vfs_link_none hl) he) d (by simpa [hl, he] using hd)

theorem posixSearched_plain (hp : fs.vfs.Plain directory) :
    ∀ d ∈ fs.posixSearched final links directory parts, fs.vfs.Plain d := by
  induction links generalizing directory parts
  case zero => exact posixLeg_plain hp
  case succ links hi =>
    intro d hd
    cases List.mem_append.mp hd
    case inl hd => exact posixLeg_plain hp d hd
    case inr hd =>
      cases hs : fs.posixScan final directory parts with
      | error => simp [hs] at hd
      | ok stop =>
        cases stop
        case arrived => simp [hs] at hd
        case redirected next rest => exact hi (posixScan_plain hp hs) d (by simpa [hs] using hd)

theorem directory_of_plain (hr : fs.RootDirectory []) (hp : fs.vfs.Plain path) :
    ∃ metadata, fs.lookup path = .ok (.directory metadata) := by
  by_cases hn : path = []
  case pos => exact hn ▸ (hr [] (List.prefix_refl _)).2
  case neg =>
    have ⟨_, he⟩ := hp path hn (List.prefix_refl _)
    have ⟨node, hl, he⟩ := Fallible.bind_ok (x := fs.lookup path) he
    cases node <;> simp [Node.isDirectory, throw, throwThe, MonadExceptOf.throw] at he
    case directory metadata => exact ⟨metadata, hl⟩

theorem metadataFollow_directory (h : fs.lookup path = .ok (.directory metadata)) :
    fs.metadataFollow path = .ok (path, .directory metadata) := by
  simp [metadataFollow, h, bind, Except.bind, Node.target?, pure, Except.pure]

end Namespace

namespace AccessTask

theorem checkAccess_sameIds (h : task.sameIds identity) :
    node.checkAccess task.credentials mode identity = node.checkAccess task.credentials mode .filesystem := by
  have ⟨hu, hg⟩ : identity.id task.credentials.uids = CredentialIdentity.filesystem.id task.credentials.uids ∧
      identity.id task.credentials.gids = CredentialIdentity.filesystem.id task.credentials.gids :=
    Bool.and_eq_true_iff.mp h |>.imp of_decide_eq_true of_decide_eq_true
  simp only [Node.checkAccess, Node.permissions, CredentialIdentity.uid, CredentialIdentity.isInGroup, hu, hg]
  rfl

theorem checkAccess_root (h : identity.uid task.credentials = 0) :
    (Node.directory metadata : Node N).checkAccess task.credentials mode identity = .ok () := by
  simp [Node.checkAccess, h]

theorem searchComponents_ok (h : task.searchComponents fs identity current path = .ok ()) (hn : part ≠ [])
    (hp : part <+: path.dropLast) : ∃ target node, fs.metadataFollow (current ++ part) = .ok (target, node) ∧
      node.checkAccess task.credentials .search identity = .ok () := by
  induction path generalizing current part
  case nil => exact absurd (List.prefix_nil.mp hp) hn
  case cons c path hi =>
    cases path
    case nil => exact absurd (List.prefix_nil.mp hp) hn
    case cons c' path =>
      rw [searchComponents] at h
      case x_2 => simp
      have ⟨(target, node), hm, h⟩ := Fallible.bind_ok h
      have ⟨_, hc, h⟩ := Fallible.bind_ok h
      cases part
      case nil => exact absurd rfl hn
      case cons p part =>
        rw [List.dropLast_cons_of_ne_nil (by simp), List.cons_prefix_cons] at hp
        have ⟨he, hr⟩ := hp
        subst he
        by_cases hn : part = []
        case pos => exact ⟨target, node, by simpa [hn] using hm, hc⟩
        case neg => simpa using hi h hn hr

theorem mem_properAncestors : d ∈ properAncestors path ↔ d ≠ [] ∧ d <+: path.dropLast := by
  cases hp : path.dropLast <;> simp [properAncestors, hp, List.inits]
  case cons c rest =>
    constructor
    case mp =>
      intro ⟨part, hp, he⟩
      subst he
      simpa using hp
    case mpr =>
      intro ⟨hn, hp⟩
      cases d
      case nil => exact absurd rfl hn
      case cons d part =>
        have ⟨he, hp⟩ := List.cons_prefix_cons.mp hp
        exact ⟨part, hp, he ▸ rfl⟩

theorem checkSearchAccess_ok (h : task.checkSearchAccess fs path identity = .ok ())
    (hd : d ∈ task.searchChecked path identity) (hl : fs.lookup d = .ok (.directory metadata)) :
    task.May fs d .search := by
  rw [searchChecked] at hd
  split at hd
  case isFalse => cases hd
  case isTrue hs =>
    have ⟨hn, hp⟩ := mem_properAncestors.mp hd
    refine ⟨_, hl, checkAccess_sameIds hs ▸ ?_⟩
    rw [checkSearchAccess] at h
    split at h
    case isTrue hu => exact checkAccess_root hu
    case isFalse =>
      have ⟨target, node, hm, hc⟩ := searchComponents_ok h hn hp
      rw [List.nil_append, Namespace.metadataFollow_directory hl] at hm
      cases hm
      exact hc

theorem checkSearchAccess_filesystem (h : task.checkSearchAccess fs path .filesystem = .ok ())
    (hd : d ∈ properAncestors path) (hl : fs.lookup d = .ok (.directory metadata)) : task.May fs d .search :=
  checkSearchAccess_ok h (by simpa [searchChecked, sameIds, CredentialIdentity.id] using hd) hl

theorem checkAccess_change (h : node.checkAccess task.credentials .change identity = .ok ())
    (hd : node.isDirectory) : node.checkAccess task.credentials .search identity = .ok () := by
  cases node <;> cases hd
  simp only [Node.checkAccess] at h ⊢
  by_cases hu : identity.uid task.credentials = 0
  case pos => rw [if_pos hu]
  case neg =>
    rw [if_neg hu] at h ⊢
    generalize Node.permissions _ _ _ = perm at h ⊢
    have hp : perm &&& AccessMode.change.required = AccessMode.change.required := by
      apply Classical.by_contradiction
      intro hn
      rw [if_pos hn] at h
      cases h
    have hr : AccessMode.search.required = AccessMode.change.required &&& AccessMode.search.required := by decide
    rw [if_neg]
    apply not_not.mpr
    rw [hr, ← BitVec.and_assoc, hp]

theorem checkChangeAccess_ok (h : task.checkChangeAccess fs parent = .ok node)
    (hl : fs.lookup d = .ok (.directory metadata)) :
    (d ∈ changeChecked parent → task.May fs d .search) ∧ (d = parent → task.May fs d .change) := by
  have ⟨(target, node'), hm, h⟩ := Fallible.bind_ok h
  simp only at h
  cases hdir : node'.isDirectory <;> simp only [hdir, Bool.not_true, Bool.not_false, Bool.false_eq_true, if_true, if_false] at h
  case false => cases h
  case true =>
    have ⟨_, hs, h⟩ := Fallible.bind_ok h
    have ⟨_, hc, h⟩ := Fallible.bind_ok h
    cases h
    have hchange : d = parent → task.May fs d .change := by
      intro he
      subst he
      rw [Namespace.metadataFollow_directory hl] at hm
      cases hm
      exact ⟨_, hl, hc⟩
    refine ⟨fun hd => ?_, hchange⟩
    cases List.mem_cons.mp hd
    case inl he =>
      have ⟨node, hn, hc⟩ := hchange he
      exact ⟨node, hn, checkAccess_change hc (by rw [hl] at hn; cases hn; rfl)⟩
    case inr hd => exact checkSearchAccess_filesystem hs hd hl

theorem checkCreateAccess_ok (h : task.checkCreateAccess fs parent = .ok ()) :
    ∃ node, task.checkChangeAccess fs parent = .ok node :=
  have ⟨node, h, _⟩ := Fallible.bind_ok h
  ⟨node, h⟩

theorem checkDeleteAccess_ok (h : task.checkDeleteAccess fs path node = .ok ()) :
    ∃ node, task.checkChangeAccess fs (parentPath path) = .ok node :=
  have ⟨node, h, _⟩ := Fallible.bind_ok h
  ⟨node, h⟩

-- What a call has checked when it goes on: `d` is a directory.
theorem access_checked (h : task.access fs call = .ok ()) (hl : fs.lookup d = .ok (.directory metadata)) :
    (d ∈ task.checked fs call → task.May fs d .search) ∧ (d ∈ task.changed fs call → task.May fs d .change) := by
  cases call
  case stat path follow =>
    obtain ⟨norm, hn, h⟩ := Fallible.bind_ok h
    obtain ⟨_, hs, _⟩ := Fallible.bind_ok h
    simp only [checked, changed, hn, Except.toOption, Option.elim_some]
    exact ⟨fun hd => checkSearchAccess_filesystem hs hd hl, fun hd => by cases hd⟩
  case «open» path mode nofollow create pathOnly =>
    cases pathOnly
    case true => exact ⟨fun hd => (by cases hd), fun hd => (by cases hd)⟩
    case false =>
      obtain ⟨norm, hn, h⟩ := Fallible.bind_ok h
      simp only [checked, changed, hn, Bool.false_eq_true, if_false]
      cases hk : fs.lookup norm with
      | ok node =>
        simp only [hk] at h
        obtain ⟨_, hs, _⟩ := Fallible.bind_ok h
        exact ⟨fun hd => checkSearchAccess_filesystem hs hd hl, fun hd => by cases hd⟩
      | error e =>
        simp only [hk] at h
        cases create
        case false => cases h
        case true =>
          obtain ⟨node, hc⟩ := checkCreateAccess_ok h
          obtain ⟨h₁, h₂⟩ := checkChangeAccess_ok hc hl
          exact ⟨h₁, fun hd => h₂ (List.mem_singleton.mp hd)⟩
  case readlink path =>
    obtain ⟨norm, hn, hs⟩ := Fallible.bind_ok h
    simp only [checked, changed, hn, Except.toOption, Option.elim_some]
    exact ⟨fun hd => checkSearchAccess_filesystem hs hd hl, fun hd => by cases hd⟩
  case unlink path =>
    obtain ⟨_, _, h⟩ := Fallible.bind_ok h
    obtain ⟨_, hc⟩ := checkDeleteAccess_ok h
    obtain ⟨h₁, h₂⟩ := checkChangeAccess_ok hc hl
    exact ⟨h₁, fun hd => h₂ (List.mem_singleton.mp hd)⟩
  case rename old new =>
    obtain ⟨_, _, h⟩ := Fallible.bind_ok h
    obtain ⟨_, hc, h⟩ := Fallible.bind_ok h
    obtain ⟨_, hc⟩ := checkDeleteAccess_ok hc
    obtain ⟨h₁, h₂⟩ := checkChangeAccess_ok hc hl
    obtain ⟨_, hc⟩ : ∃ node, task.checkChangeAccess fs (parentPath (task.host new)) = .ok node := by
      split at h
      case h_1 => exact checkDeleteAccess_ok h
      case h_2 => exact checkCreateAccess_ok h
      case h_3 => cases h
    obtain ⟨h₃, h₄⟩ := checkChangeAccess_ok hc hl
    refine ⟨fun hd => (List.mem_append.mp hd).elim h₁ h₃, fun hd => ?_⟩
    cases List.mem_cons.mp hd
    case inl he => exact h₂ he
    case inr hd => exact h₄ (List.mem_singleton.mp hd)
  case link old new =>
    obtain ⟨_, hs, h⟩ := Fallible.bind_ok h
    obtain ⟨_, hc⟩ := checkCreateAccess_ok h
    obtain ⟨h₁, h₂⟩ := checkChangeAccess_ok hc hl
    exact ⟨fun hd => (List.mem_append.mp hd).elim (checkSearchAccess_filesystem hs · hl) h₁,
      fun hd => h₂ (List.mem_singleton.mp hd)⟩
  case mkdir path =>
    obtain ⟨norm, hn, h⟩ := Fallible.bind_ok h
    obtain ⟨_, hc⟩ := checkCreateAccess_ok h
    obtain ⟨h₁, h₂⟩ := checkChangeAccess_ok hc hl
    simp only [checked, changed, hn, Except.toOption, Option.elim_some]
    exact ⟨h₁, fun hd => h₂ (List.mem_singleton.mp hd)⟩
  case chmod path follow =>
    obtain ⟨_, hs, h⟩ := Fallible.bind_ok h
    refine ⟨fun hd => ?_, fun hd => by cases hd⟩
    cases List.mem_append.mp hd
    case inl hd => exact checkSearchAccess_ok hs hd hl
    case inr hd =>
      split at hd
      case isFalse => cases hd
      case isTrue hf =>
        rw [if_pos hf] at h
        obtain ⟨resolved, hr, hs⟩ := Fallible.bind_ok h
        simp only [hr, Except.toOption, Option.elim_some] at hd
        exact checkSearchAccess_ok hs hd hl
  case truncate path =>
    obtain ⟨norm, hn, h⟩ := Fallible.bind_ok h
    obtain ⟨_, hs, _⟩ := Fallible.bind_ok h
    simp only [checked, changed, hn, Except.toOption, Option.elim_some]
    exact ⟨fun hd => checkSearchAccess_ok hs hd hl, fun hd => by cases hd⟩
  case execve => exact ⟨fun hd => (by cases hd), fun hd => (by cases hd)⟩

theorem searched_directory (hc : fs.RootDirectory task.cwd) (hd : d ∈ task.searched fs call) :
    ∃ metadata, fs.lookup d = .ok (.directory metadata) := by
  have ⟨(path, final), _, hd⟩ := List.mem_flatMap.mp hd
  have hp : fs.vfs.Plain (if path.absolute then [] else task.cwd) := by
    split
    case isTrue => exact hc.plain.of_prefix List.nil_prefix
    case isFalse => exact hc.plain
  exact Namespace.directory_of_plain (hc.of_prefix List.nil_prefix) (Namespace.posixSearched_plain hp d hd)

-- A task that is not privileged, and a directory 0 which only the super-user may search, with a link to the
-- directory 3, where everybody may look up the regular file 2.
def unprivileged : AccessTask Nat where
  credentials := ⟨⟨1000, 1000, 1000, 1000⟩, ⟨1000, 1000, 1000, 1000⟩, []⟩
  cwd         := []

def linkInPrivate : Namespace Nat where
  removed _ := false
  tmpfs _   := true
  mem path  :=
    if path = [] then some (.directory ⟨1, 0o755, 0, 0⟩)
    else if path = [0] then some (.directory ⟨2, 0o700, 0, 0⟩)
    else if path = [0, 1] then some (.symlink ⟨true, [.name 3]⟩ ⟨3, 0o777, 0, 0⟩)
    else if path = [3] then some (.directory ⟨4, 0o755, 0, 0⟩)
    else if path = [3, 2] then some (.regular ⟨5, 0o644, 0, 0⟩)
    else none
  disk _    := none
  closed    := Namespace.closed_of_empty

theorem linkInPrivate_rootDirectory : linkInPrivate.RootDirectory [] := by
  intro part hp
  have he := List.prefix_nil.mp hp
  subst he
  exact ⟨rfl, _, rfl⟩

theorem linkInPrivate_access :
    unprivileged.access linkInPrivate (.stat ⟨true, [.name 0, .name 1, .name 2]⟩ true) = .ok () := by
  decide_cbv

end AccessTask

end WllOs.Fs
