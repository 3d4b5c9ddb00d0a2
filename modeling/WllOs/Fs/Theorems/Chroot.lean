import WllOs.Fs.Theorems.Lookup

namespace WllOs.Fs

variable {N : Type} {fs other : Namespace N} {root path part above outside q target : HostPath N} {c : N}
variable {metadata : Metadata} {node : Node N} {call : PathCall}

def Node.renumber : Node N → Node N
  | .regular metadata        => .regular { metadata with ino := metadata.ino + 1 }
  | .directory metadata      => .directory { metadata with ino := metadata.ino + 1 }
  | .symlink target metadata => .symlink target { metadata with ino := metadata.ino + 1 }
  | .other metadata          => .other { metadata with ino := metadata.ino + 1 }

theorem Node.target_renumber : node.renumber.target? = node.target? := by
  cases node <;> rfl

namespace Namespace

section Lookup

theorem RootDirectory.plain (h : fs.RootDirectory root) : fs.vfs.Plain root := by
  intro part _ hp
  have ⟨hl, _, hd⟩ := h part hp
  exact ⟨vfs_link_none hl, vfs_enter_directory hd⟩

theorem RootDirectory.of_prefix (h : fs.RootDirectory root) (hp : part <+: root) : fs.RootDirectory part :=
  fun _ hq => h _ (hq.trans hp)

end Lookup

namespace SameBeneath

variable (h : fs.SameBeneath root other)
include h

theorem sameAt (hp : root <+: path) : fs.SameAt other path where
  removed := h.removed path hp
  tmpfs   := h.tmpfs path hp
  mem     := h.mem path hp
  disk    := h.disk path hp

theorem lookup_ok (hp : root <+: path) (hn : fs.lookup path = .ok node) : other.lookup path = .ok node := by
  rw [lookup_ok_iff] at hn ⊢
  rwa [← h.removed path hp, ← h.tmpfs path hp, ← h.mem path hp, ← h.disk path hp]

theorem lookup (hp : root <+: path) : fs.lookup path = other.lookup path := by
  have ⟨rest, he⟩ := hp
  cases rest using List.reverseRecOn
  case nil =>
    have ⟨_, _, hm⟩ := h.root₁ path (by simp [← he])
    rw [hm, h.lookup_ok hp hm]
  case append_singleton rest d _ =>
    have hs : parentPath path = root ++ rest := by simp [← he, parentPath]
    exact (h.sameAt hp).lookup (hs ▸ h.sameAt (List.prefix_append _ _))

theorem vfs : LinkTree.SameBeneath root fs.vfs other.vfs where
  plain₁       := h.root₁.plain
  plain₂       := h.root₂.plain
  link path hp := by simp [Namespace.vfs, (h.sameAt hp).lookupSymlinkTarget]
  enter path hp := by simp [Namespace.vfs, h.lookup hp]
  loop         := rfl

theorem ext4 (hd : fs.disk root = some (.directory metadata)) : LinkTree.SameBeneath root fs.ext4 other.ext4 where
  plain₁        := ext4_plain hd
  plain₂        := ext4_plain (h.disk root (List.prefix_refl _) ▸ hd)
  link path hp  := by simp [Namespace.ext4, h.disk path hp]
  enter path hp := by simp [Namespace.ext4, h.disk path hp]
  loop          := rfl

end SameBeneath

-- Two file systems that differ only at a path and beneath it.
structure SameOff (fs other : Namespace N) (q : HostPath N) : Prop where
  removed : ∀ path, ¬q <+: path → fs.removed path = other.removed path
  tmpfs   : ∀ path, ¬q <+: path → fs.tmpfs path = other.tmpfs path
  mem     : ∀ path, ¬q <+: path → fs.mem path = other.mem path
  disk    : ∀ path, ¬q <+: path → fs.disk path = other.disk path

namespace SameOff

variable (h : fs.SameOff other q)
include h

theorem sameAt (hp : ¬q <+: path) : fs.SameAt other path where
  removed := h.removed path hp
  tmpfs   := h.tmpfs path hp
  mem     := h.mem path hp
  disk    := h.disk path hp

theorem lookup (hp : ¬q <+: path) : fs.lookup path = other.lookup path :=
  (h.sameAt hp).lookup (h.sameAt fun hq => hp (hq.trans (List.dropLast_prefix _)))

theorem rootDirectory (hr : fs.RootDirectory root) (hq : ¬q <+: root) : other.RootDirectory root := by
  intro part hp
  have hn : ¬q <+: part := fun hq' => hq (hq'.trans hp)
  rw [← (h.sameAt hn).lookupSymlinkTarget, ← h.lookup hn]
  exact hr part hp

theorem sameBeneath (hr : fs.RootDirectory root) (hq : ¬q <+: root) (hb : ¬root <+: q) :
    fs.SameBeneath root other :=
  have hn path (hp : root <+: path) : ¬q <+: path := fun hq' =>
    (List.prefix_or_prefix_of_prefix hp hq').elim hb hq
  { root₁        := hr
    root₂        := h.rootDirectory hr hq
    removed p hp := h.removed p (hn p hp)
    tmpfs p hp   := h.tmpfs p (hn p hp)
    mem p hp     := h.mem p (hn p hp)
    disk p hp    := h.disk p (hn p hp) }

end SameOff

section Variants

variable [DecidableEq N]

-- The same objects, with another number for the one at a path.
def renumber (fs : Namespace N) (q : HostPath N) : Namespace N where
  removed           := fs.removed
  tmpfs             := fs.tmpfs
  mem path          := if path = q then (fs.mem path).map Node.renumber else fs.mem path
  disk path         := if path = q then (fs.disk path).map Node.renumber else fs.disk path
  closed path c h   := by
    have ⟨metadata, hd⟩ := fs.closed path c (by split at h <;> simpa using h)
    split
    case isTrue => exact ⟨_, by rw [hd]; rfl⟩
    case isFalse => exact ⟨_, hd⟩

@[simp] theorem renumber_removed : (fs.renumber q).removed path = fs.removed path := rfl

@[simp] theorem renumber_tmpfs : (fs.renumber q).tmpfs path = fs.tmpfs path := rfl

@[simp] theorem renumber_mem :
    (fs.renumber q).mem path = if path = q then (fs.mem path).map Node.renumber else fs.mem path := rfl

@[simp] theorem renumber_disk :
    (fs.renumber q).disk path = if path = q then (fs.disk path).map Node.renumber else fs.disk path := rfl

-- Nothing is found at a path.
def hide (fs : Namespace N) (q : HostPath N) : Namespace N where
  removed path    := path = q || fs.removed path
  tmpfs           := fs.tmpfs
  mem             := fs.mem
  disk path       := if q <+: path then none else fs.disk path
  closed path c h := by
    split at h
    case isTrue => exact absurd rfl h
    case isFalse hn => rw [if_neg fun hq => hn (hq.trans (List.prefix_append _ _))]; exact fs.closed path c h

def selfLink (q : HostPath N) : Node N :=
  .symlink ⟨true, q.map .name⟩ ⟨0, 0, 0, 0⟩

-- A link to itself is found at a path.
def plantLoop (fs : Namespace N) (above : HostPath N) (c : N) : Namespace N where
  removed path    := path ≠ above ++ [c] && fs.removed path
  tmpfs           := fs.tmpfs
  mem path        := if path = above ++ [c] then some (selfLink path) else fs.mem path
  disk path       :=
    if path = above ++ [c] then
      if (fs.disk above).any Node.isDirectory then some (selfLink path) else none
    else if above ++ [c] <+: path then none
    else fs.disk path
  closed path d h := by
    split at h
    case isTrue he =>
      have ⟨he, _⟩ := List.append_inj' he rfl
      subst he
      rw [if_neg (by simp), if_neg fun hp => absurd hp.length_le (by simp)]
      split at h
      case isFalse => exact absurd rfl h
      case isTrue hd =>
        cases hk : fs.disk path
        case none => simp [hk] at hd
        case some node =>
          cases node <;> simp_all [Node.isDirectory]
    case isFalse =>
      split at h
      case isTrue => exact absurd rfl h
      case isFalse hn =>
        have hq : ¬above ++ [c] <+: path := fun hq => hn (hq.trans (List.prefix_append _ _))
        rw [if_neg fun he : path = _ => hq (he ▸ List.prefix_refl _), if_neg hq]
        exact fs.closed path d h

theorem sameOff_hide : fs.SameOff (fs.hide q) q where
  removed path h := by simp [hide, show path ≠ q from fun he => h (he ▸ List.prefix_refl _)]
  tmpfs _ _      := rfl
  mem _ _        := rfl
  disk path h    := by simp [hide, h]

theorem sameOff_plantLoop : fs.SameOff (fs.plantLoop above c) (above ++ [c]) where
  removed path h := by simp [plantLoop, show path ≠ above ++ [c] from fun he => h (he ▸ List.prefix_refl _)]
  tmpfs _ _      := rfl
  mem path h     := by simp [plantLoop, show path ≠ above ++ [c] from fun he => h (he ▸ List.prefix_refl _)]
  disk path h    := by simp [plantLoop, h, show path ≠ above ++ [c] from fun he => h (he ▸ List.prefix_refl _)]

theorem hide_missing : (fs.hide q).lookupSymlinkTarget q = .error .ENOENT ∧ (fs.hide q).lookup q = .error .ENOENT := by
  have h : (fs.hide q).removed q = true := by simp [hide]
  simp [Namespace.lookupSymlinkTarget, Namespace.lookup, h]

theorem hide_disk : (fs.hide q).disk q = none := by
  simp [hide]

variable (fs above c) in
theorem plantLoop_at : (fs.plantLoop above c).removed (above ++ [c]) = false ∧
    (fs.plantLoop above c).mem (above ++ [c]) = some (selfLink (above ++ [c])) := by
  simp [plantLoop]

theorem plantLoop_disk (h : fs.disk above = some (.directory metadata)) :
    (fs.plantLoop above c).disk (above ++ [c]) = some (selfLink (above ++ [c])) := by
  simp [plantLoop, h, Node.isDirectory]

omit [DecidableEq N] in
theorem selfLink_target : (selfLink q).target? = some ⟨true, q.map .name⟩ := rfl

omit [DecidableEq N] in
theorem symlinkTargetPath_names : symlinkTargetPath path ⟨true, q.map .name⟩ = q := by
  simp [symlinkTargetPath, normalize_names]

theorem renumber_lookupSymlinkTarget : (fs.renumber q).lookupSymlinkTarget path = fs.lookupSymlinkTarget path := by
  have ht (o : Option (Node N)) : (if path = q then o.map Node.renumber else o).bind Node.target? =
      o.bind Node.target? := by
    split <;> cases o <;> simp [Node.target_renumber]
  simp only [Namespace.lookupSymlinkTarget, renumber_removed, renumber_tmpfs, renumber_mem, renumber_disk, ht]

theorem renumber_lookup (h : fs.lookup path = .ok node) :
    (fs.renumber q).lookup path = .ok (if path = q then node.renumber else node) := by
  rw [lookup_ok_iff] at h ⊢
  refine ⟨h.1, ?_⟩
  by_cases hq : path = q
  case pos =>
    subst hq
    cases h.2
    case inl hm => exact .inl (by simp [hm])
    case inr hd => exact .inr (by simp [hd])
  case neg => simpa [hq] using h.2

-- What tells two file systems apart after a walk has left the directory: the number of the directory where it
-- ends, or whether there is something where it turns off.
inductive Apart (left right : Namespace N) : Except SysErrNo (HostPath N) → Except SysErrNo (HostPath N) → Prop
  | above {q : HostPath N} : left.RootDirectory q → right.RootDirectory q → left.lookup q ≠ right.lookup q →
      Apart left right (.ok q) (.ok q)
  | lost : Apart left right (.error .ENOENT) (.error .ELOOP)
  | last {q : HostPath N} : left.lookupSymlinkTarget q = .error .ENOENT → left.lookup q = .error .ENOENT →
      right.lookupSymlinkTarget q = .ok (some ⟨true, q.map .name⟩) → right.removed q = false →
      right.mem q = some (selfLink q) → left.vfs.resolve .follow maxLinks q = .error .ENOENT →
      right.vfs.resolve .follow maxLinks q = .error .ELOOP → Apart left right (.ok q) (.ok q)

theorem sameBeneath_renumber (hr : fs.RootDirectory root) (hn : ¬root <+: q) :
    fs.SameBeneath root (fs.renumber q) where
  root₁        := hr
  root₂ part hp := by
    have ⟨hl, metadata, hm⟩ := hr part hp
    refine ⟨renumber_lookupSymlinkTarget.trans hl, ?_⟩
    rw [renumber_lookup hm]
    split
    case isTrue => exact ⟨_, rfl⟩
    case isFalse => exact ⟨_, rfl⟩
  removed _ _  := rfl
  tmpfs _ _    := rfl
  mem path hp  := by simp [show path ≠ q from fun he => hn (he ▸ hp)]
  disk path hp := by simp [show path ≠ q from fun he => hn (he ▸ hp)]

omit [DecidableEq N] in
theorem SameBeneath.refl (hr : fs.RootDirectory root) : fs.SameBeneath root fs :=
  ⟨hr, hr, fun _ _ => rfl, fun _ _ => rfl, fun _ _ => rfl, fun _ _ => rfl⟩

theorem sameBeneath_hide (hr : fs.RootDirectory root) (hq : ¬q <+: root) (hn : ¬root <+: q) :
    fs.SameBeneath root (fs.hide q) :=
  sameOff_hide.sameBeneath hr hq hn

theorem sameBeneath_plantLoop (hr : fs.RootDirectory root) (hq : ¬above ++ [c] <+: root)
    (hn : ¬root <+: above ++ [c]) : fs.SameBeneath root (fs.plantLoop above c) :=
  sameOff_plantLoop.sameBeneath hr hq hn

omit [DecidableEq N] in
theorem not_prefix_turn {d : N} (hd : above ++ [d] <+: root) (hn : ¬above ++ [c] <+: root) : ¬root <+: above ++ [c] := by
  intro hp
  have h := (List.prefix_append_right_inj _).mp (hd.trans hp)
  have hc : d = c := by simpa using h
  exact hn (hc ▸ hd)

theorem plantLoop_vfs_link : (fs.plantLoop above c).vfs.link (above ++ [c]) = .ok (some (above ++ [c])) := by
  have ⟨hr, hm⟩ := plantLoop_at fs above c
  simp only [vfs, Namespace.lookupSymlinkTarget, hr, hm, Bool.false_eq_true, if_false, Option.bind_some,
    selfLink_target, Except.map, Option.map_some, symlinkTargetPath_names]

-- A walk that leaves the directory tells some file systems apart that are the same beneath it.
theorem exists_apart {final : FinalLink} {links : Nat} (hr : fs.RootDirectory root)
    (h : ¬∀ hop ∈ fs.vfs.hops final links path, root <+: hop) :
    ∃ left right, fs.SameBeneath root left ∧ fs.SameBeneath root right ∧
      Apart left right (left.vfs.resolve final links path) (right.vfs.resolve final links path) := by
  obtain ⟨rest, outside, ho, he⟩ := LinkTree.exists_outside h
  cases LinkTree.outside_cases ho
  case inl hp =>
    have hs := sameBeneath_renumber hr ho
    refine ⟨fs, fs.renumber outside, .refl hr, hs, ?_⟩
    rw [he _ (SameBeneath.refl hr).vfs, he _ hs.vfs, LinkTree.resolve_plain (hr.plain.of_prefix hp),
      LinkTree.resolve_plain (hs.root₂.plain.of_prefix hp)]
    obtain ⟨_, metadata, hm⟩ := hr outside hp
    apply Apart.above (hr.of_prefix hp) (hs.root₂.of_prefix hp)
    simp [hm, renumber_lookup hm, Node.renumber, Metadata.ext_iff]
  case inr hp =>
    obtain ⟨above, c, pending, hs, ha, hn, d, hd⟩ := hp
    have hn' := not_prefix_turn hd hn
    have hl := sameBeneath_hide hr hn hn'
    have hp := sameBeneath_plantLoop hr hn hn'
    refine ⟨_, _, hl, hp, ?_⟩
    rw [he _ hl.vfs, he _ hp.vfs, hs, LinkTree.resolve_turn_loop (hp.root₂.plain.of_prefix ha) plantLoop_vfs_link,
      LinkTree.resolve_turn_error (e := .ENOENT) (hl.root₂.plain.of_prefix ha) (by simp [vfs, hide_missing, Except.map])]
    split
    case isTrue =>
      obtain ⟨hr, hm⟩ := plantLoop_at fs above c
      apply Apart.last hide_missing.1 hide_missing.2 (by simp [Namespace.lookupSymlinkTarget, hr, hm, selfLink_target])
        hr hm
      case _ =>
        rw [LinkTree.resolve_turn_error (e := .ENOENT) (hl.root₂.plain.of_prefix ha)
          (by simp [vfs, hide_missing, Except.map])]
        simp
      case _ =>
        rw [LinkTree.resolve_turn_loop (hp.root₂.plain.of_prefix ha) plantLoop_vfs_link]
        simp [vfs]
    case isFalse => exact .lost

omit [DecidableEq N] in
theorem Apart.found {left right : Namespace N} {x y : Except SysErrNo (HostPath N)} (h : Apart left right x y) :
    (x >>= fun q => pure (left.found q)) ≠ (y >>= fun q => pure (right.found q)) := by
  cases h
  case above q _ _ hn => simpa [Namespace.found, bind, Except.bind, pure, Except.pure] using hn
  case lost => simp [bind, Except.bind]
  case last q _ hm _ hr hs _ _ =>
    have : right.lookup q = .ok (selfLink q) := lookup_ok_iff.mpr ⟨hr, .inl hs⟩
    simp [Namespace.found, bind, Except.bind, pure, Except.pure, hm, this]

omit [DecidableEq N] in
theorem Apart.lookup {left right : Namespace N} {x y : Except SysErrNo (HostPath N)} (h : Apart left right x y) :
    (x >>= fun q => (left.lookup q).map (q, ·)) ≠ (y >>= fun q => (right.lookup q).map (q, ·)) := by
  cases h
  case above q hl hr hn =>
    have ⟨_, _, h₁⟩ := hl q (List.prefix_refl _)
    have ⟨_, _, h₂⟩ := hr q (List.prefix_refl _)
    simpa [bind, Except.bind, h₁, h₂, Except.map] using hn
  case lost => simp [bind, Except.bind]
  case last q _ hm _ hr hs _ _ =>
    have : right.lookup q = .ok (selfLink q) := lookup_ok_iff.mpr ⟨hr, .inl hs⟩
    simp [bind, Except.bind, hm, this, Except.map]

omit [DecidableEq N] in
theorem RootDirectory.metadataFollow (h : fs.RootDirectory path) :
    fs.metadataFollow path = (fs.lookup path).map (path, ·) := by
  have ⟨_, metadata, hm⟩ := h path (List.prefix_refl _)
  simp [Namespace.metadataFollow, hm, Node.target?, bind, Except.bind, Except.map, pure, Except.pure]

omit [DecidableEq N] in
theorem Apart.metadataFollow {left right : Namespace N} {x y : Except SysErrNo (HostPath N)}
    (h : Apart left right x y) : (x >>= left.metadataFollow) ≠ (y >>= right.metadataFollow) := by
  cases h
  case above q hl hr hn =>
    have ⟨_, _, h₁⟩ := hl q (List.prefix_refl _)
    have ⟨_, _, h₂⟩ := hr q (List.prefix_refl _)
    simpa [bind, Except.bind, hl.metadataFollow, hr.metadataFollow, h₁, h₂, Except.map] using hn
  case lost => simp [bind, Except.bind]
  case last q _ hm _ hr hs _ he =>
    have : right.lookup q = .ok (selfLink q) := lookup_ok_iff.mpr ⟨hr, .inl hs⟩
    simp [Namespace.metadataFollow, bind, Except.bind, hm, this, selfLink_target, hs, resolveFinalSymlink,
      resolvePathSymlinks, he]

omit [DecidableEq N] in
theorem Apart.finalComponent {left right : Namespace N} {x y : Except SysErrNo (HostPath N)} {nofollow : Bool}
    (h : Apart left right x y) :
    (x >>= fun p => left.resolveFinalComponentSymlink p nofollow >>= fun q => pure (left.found q)) ≠
      (y >>= fun p => right.resolveFinalComponentSymlink p nofollow >>= fun q => pure (right.found q)) := by
  cases h
  case above q hl hr hn =>
    have ⟨h₁, _⟩ := hl q (List.prefix_refl _)
    have ⟨h₂, _⟩ := hr q (List.prefix_refl _)
    simpa [bind, Except.bind, resolveFinalComponentSymlink, h₁, h₂, Namespace.found, pure, Except.pure] using hn
  case lost => simp [bind, Except.bind]
  case last q hl _ hs _ _ _ he =>
    have : (right.resolveFinalComponentSymlink q nofollow) = .error .ELOOP := by
      simp only [resolveFinalComponentSymlink, hs, bind, Except.bind, symlinkTargetPath_names, resolvePathSymlinks, he]
      cases nofollow <;> rfl
    have hl : left.resolveFinalComponentSymlink q nofollow = .error .ENOENT := by
      simp only [resolveFinalComponentSymlink, hl, bind, Except.bind]
    simp [bind, Except.bind, this, hl]

omit [DecidableEq N] in
theorem Apart.resolveFinal {left right : Namespace N} {x y : Except SysErrNo (HostPath N)}
    (h : Apart left right x y) :
    (x >>= fun p => left.resolveFinalSymlink p false >>= fun q => pure (left.found q)) ≠
      (y >>= fun p => right.resolveFinalSymlink p false >>= fun q => pure (right.found q)) := by
  cases h
  case above q hl hr hn =>
    simpa [bind, Except.bind, resolveFinalSymlink, resolvePathSymlinks, LinkTree.resolve_plain hl.plain,
      LinkTree.resolve_plain hr.plain, Namespace.found, pure, Except.pure] using hn
  case lost => simp [bind, Except.bind]
  case last hl he => simp [bind, Except.bind, resolveFinalSymlink, resolvePathSymlinks, hl, he]

-- The same for the walk inside the ext4 volume, which starts at a link that the volume holds.
theorem exists_apart_ext4 {links : Nat} (hr : fs.RootDirectory root) (hd : fs.disk root = some (.directory metadata))
    (h : ¬∀ hop ∈ fs.ext4.hops .follow links path, root <+: hop) :
    ∃ left right, fs.SameBeneath root left ∧ fs.SameBeneath root right ∧
      (left.ext4.resolve .follow links path >>= fun q => (left.ext4Metadata q).map (q, ·)) ≠
        (right.ext4.resolve .follow links path >>= fun q => (right.ext4Metadata q).map (q, ·)) := by
  have ⟨rest, outside, ho, he⟩ := LinkTree.exists_outside h
  cases LinkTree.outside_cases ho
  case inl hp =>
    have hs := sameBeneath_renumber hr ho
    have ⟨metadata', ha⟩ : ∃ metadata', fs.disk outside = some (.directory metadata') := by
      have ⟨rest, hr⟩ := hp
      cases rest
      case nil => exact ⟨metadata, by simpa [← hr] using hd⟩
      case cons d rest => exact disk_directory_of_prefix (show fs.disk (outside ++ d :: rest) ≠ none by simp [hr, hd])
    have ha' : (fs.renumber outside).disk outside = some (.directory { metadata' with ino := metadata'.ino + 1 }) := by
      simp [ha, Node.renumber]
    refine ⟨fs, fs.renumber outside, .refl hr, hs, ?_⟩
    rw [he _ ((SameBeneath.refl hr).ext4 hd), he _ (hs.ext4 hd), LinkTree.resolve_plain (ext4_plain ha),
      LinkTree.resolve_plain (ext4_plain ha')]
    simp [bind, Except.bind, ext4Metadata, ha, Node.renumber, Except.map, Metadata.ext_iff]
  case inr hp =>
    have ⟨above, c, pending, hs, ha, hn, d, hd'⟩ := hp
    have hn' := not_prefix_turn hd' hn
    have hl := sameBeneath_hide hr hn hn'
    have hp := sameBeneath_plantLoop hr hn hn'
    have hroot : ∃ metadata', fs.disk above = some (.directory metadata') := by
      have ⟨rest, hr⟩ := hd'
      exact disk_directory_of_prefix (show fs.disk (above ++ d :: rest) ≠ none by simp_all)
    have ⟨metadata', hk⟩ := hroot
    have hk' := plantLoop_disk (c := c) hk
    refine ⟨_, _, hl, hp, ?_⟩
    rw [he _ (hl.ext4 hd), he _ (hp.ext4 hd), hs,
      LinkTree.resolve_turn_loop ((hp.ext4 hd).plain₂.of_prefix ha)
        (by simp only [ext4, hk', selfLink_target, Option.map_some, symlinkTargetPath_names]),
      LinkTree.resolve_turn_error (e := .ENOENT) ((hl.ext4 hd).plain₂.of_prefix ha) (by simp [ext4, hide_disk])]
    simp [bind, Except.bind, ext4]

end Variants

section Calls

variable {further : HostPath N → List (HostPath N)} {nofollow : Bool}

theorem parents_confined (hb : fs.SameBeneath root other) (h : ∀ hop ∈ fs.parentHops path further, root <+: hop) :
    fs.resolveParentSymlinksForLookup path = other.resolveParentSymlinksForLookup path ∧
    ∀ p, fs.resolveParentSymlinksForLookup path = .ok p → root <+: p ∧ ∀ hop ∈ further p, root <+: hop := by
  have hp : ∀ hop ∈ fs.vfs.hops .preserve maxLinks path, root <+: hop :=
    fun hop hm => h hop (List.mem_append_left _ hm)
  refine ⟨?_, fun p he => ⟨?_, fun hop hm => h hop (List.mem_append_right _ ?_)⟩⟩
  case refine_1 =>
    rw [resolveParentSymlinksForLookup_eq, resolveParentSymlinksForLookup_eq]
    exact (hb.vfs.resolve_eq hp).1
  case refine_2 =>
    rw [resolveParentSymlinksForLookup_eq] at he
    exact hp _ (LinkTree.resolve_mem_hops he)
  case refine_3 => simpa [he, Except.toOption] using hm

theorem disk_root (hr : fs.RootDirectory root) (hp : root <+: path) (hl : fs.lookup path = .ok node)
    (ht : node.target?.isSome) (hm : fs.mem path = none) :
    ∃ metadata, fs.disk root = some (.directory metadata) := by
  have ⟨rest, he⟩ := hp
  subst he
  have hd : fs.disk (root ++ rest) = some node := by
    have ⟨_, hd⟩ := lookup_ok_iff.mp hl
    exact (hd.resolve_left (by simp [hm])).2.2
  cases rest
  case nil =>
    have ⟨_, metadata, hd⟩ := hr root (List.prefix_refl _)
    simp only [List.append_nil] at hl
    cases hl.symm.trans hd
    cases ht
  case cons c rest => exact disk_directory_of_prefix (show fs.disk (root ++ c :: rest) ≠ none by simp [hd])

theorem metadata_confined (hb : fs.SameBeneath root other) (hp : root <+: path)
    (h : ∀ hop ∈ fs.metadataHops path, root <+: hop) :
    other.metadataFollow path = fs.metadataFollow path ∧
    ∀ q node, fs.metadataFollow path = .ok (q, node) → root <+: q := by
  simp only [metadataFollow, ← hb.lookup hp]
  cases hl : fs.lookup path
  case error => simp [bind, Except.bind]
  case ok node =>
    cases ht : node.target?
    case none =>
      simp only [bind, Except.bind, ht, pure, Except.pure, true_and]
      intro q node h
      cases h
      exact hp
    case some target =>
      simp only [metadataHops, hl, Except.toOption, Option.bind_some, ht] at h
      simp only [bind, Except.bind, ht, ← hb.mem path hp]
      cases hm : fs.mem path
      case some =>
        simp only [hm, Option.isSome_some, if_true] at h ⊢
        have he := (hb.vfs.resolve_eq h).1
        simp only [resolveFinalSymlink, resolvePathSymlinks, Bool.false_eq_true, if_false, ← he]
        cases hr : fs.vfs.resolve .follow maxLinks path
        case error => simp
        case ok q =>
          have hq := h q (LinkTree.resolve_mem_hops hr)
          simp only [← hb.lookup hq, true_and]
          intro q' node hn
          cases hk : fs.lookup q <;> simp only [hk] at hn <;> cases hn
          exact hq
      case none =>
        have ⟨metadata, hd⟩ := disk_root hb.root₁ hp hl (by simp [ht]) hm
        simp only [hm, Option.isSome_none, Bool.false_eq_true, if_false] at h ⊢
        have he := ((hb.ext4 hd).resolve_eq h).1
        simp only [resolveSymlinks, ← he]
        cases hr : fs.ext4.resolve .follow maxLinks path
        case error => simp
        case ok q =>
          have hq := h q (LinkTree.resolve_mem_hops hr)
          simp only [ext4Metadata, ← hb.disk q hq, true_and]
          intro q' node hn
          cases hk : fs.disk q <;> simp only [hk] at hn <;> cases hn
          exact hq

-- Two file systems, the same as a given one beneath the directory, that a computation tells apart.
def TellsApart (fs : Namespace N) (root : HostPath N) {α : Type} (run : Namespace N → Except SysErrNo α) : Prop :=
  ∃ left right, fs.SameBeneath root left ∧ fs.SameBeneath root right ∧ run left ≠ run right

section

variable [DecidableEq N]

theorem metadata_apart (hr : fs.RootDirectory root) (hp : root <+: path)
    (h : ¬∀ hop ∈ fs.metadataHops path, root <+: hop) : fs.TellsApart root (·.metadataFollow path) := by
  cases hl : fs.lookup path
  case error => simp [metadataHops, hl, Except.toOption] at h
  case ok node =>
    cases ht : node.target?
    case none => simp [metadataHops, hl, Except.toOption, ht] at h
    case some target =>
      simp only [metadataHops, hl, Except.toOption, Option.bind_some, ht] at h
      -- The link is the same in the file systems that are told apart, which differ in where it leads.
      have hf other (hb : fs.SameBeneath root other) : other.metadataFollow path =
          if (fs.mem path).isSome then
            other.vfs.resolve .follow maxLinks path >>= fun q => (other.lookup q).map (q, ·)
          else other.ext4.resolve .follow maxLinks path >>= fun q => (other.ext4Metadata q).map (q, ·) := by
        simp only [metadataFollow, ← hb.lookup hp, hl, ← hb.mem path hp, bind, Except.bind, ht]
        cases fs.mem path <;> rfl
      cases hm : fs.mem path
      case some =>
        have hh : ¬∀ hop ∈ fs.vfs.hops .follow maxLinks path, root <+: hop := by simpa [hm] using h
        have ⟨left, right, h₁, h₂, ha⟩ := exists_apart hr hh
        refine ⟨left, right, h₁, h₂, ?_⟩
        simpa [hf _ h₁, hf _ h₂, hm] using ha.lookup
      case none =>
        have ⟨metadata, hd⟩ := disk_root hr hp hl (by simp [ht]) hm
        have hh : ¬∀ hop ∈ fs.ext4.hops .follow maxLinks path, root <+: hop := by simpa [hm] using h
        have ⟨left, right, h₁, h₂, ha⟩ := exists_apart_ext4 hr hd hh
        refine ⟨left, right, h₁, h₂, ?_⟩
        simpa [hf _ h₁, hf _ h₂, hm] using ha

theorem finalComponent_apart (hr : fs.RootDirectory root) (hp : root <+: path)
    (h : ¬∀ hop ∈ fs.finalComponentHops path nofollow, root <+: hop) :
    fs.TellsApart root fun other => other.resolveFinalComponentSymlink path nofollow >>= fun q => pure (other.found q) := by
  cases hl : fs.lookupSymlinkTarget path
  case error => simp [finalComponentHops, vfs, hl, Except.map] at h
  case ok link =>
    cases link
    case none => simp [finalComponentHops, vfs, hl, Except.map] at h
    case some target =>
      cases nofollow
      case true => simp [finalComponentHops, vfs, hl, Except.map] at h
      case false =>
        have hh : ¬∀ hop ∈ fs.vfs.hops .follow maxLinks (symlinkTargetPath path target), root <+: hop := by
          simpa [finalComponentHops, vfs, hl, Except.map] using h
        obtain ⟨left, right, h₁, h₂, ha⟩ := exists_apart hr hh
        refine ⟨left, right, h₁, h₂, ?_⟩
        have hf other (hb : fs.SameBeneath root other) : other.resolveFinalComponentSymlink path false =
            other.vfs.resolve .follow maxLinks (symlinkTargetPath path target) := by
          simp only [resolveFinalComponentSymlink, ← (hb.sameAt hp).lookupSymlinkTarget, hl, bind, Except.bind]
          rfl
        simpa only [hf _ h₁, hf _ h₂] using ha.found

theorem resolveFinal_apart (hr : fs.RootDirectory root)
    (h : ¬∀ hop ∈ fs.vfs.hops .follow maxLinks path, root <+: hop) :
    fs.TellsApart root fun other => other.resolveFinalSymlink path false >>= fun q => pure (other.found q) := by
  have ⟨left, right, h₁, h₂, ha⟩ := exists_apart hr h
  exact ⟨left, right, h₁, h₂, ha.found⟩

-- A call whose first walk resolves the parents. The first or the second walk leaves the directory.
theorem parents_apart {α : Type} {run : Namespace N → HostPath N → Except SysErrNo α} (hr : fs.RootDirectory root)
    (hfirst : ∀ {left right : Namespace N} {x y}, Apart left right x y → (x >>= run left) ≠ (y >>= run right))
    (hsecond : ∀ p, root <+: p → (¬∀ hop ∈ further p, root <+: hop) → fs.TellsApart root (run · p))
    (h : ¬∀ hop ∈ fs.parentHops path further, root <+: hop) :
    fs.TellsApart root fun other => other.resolveParentSymlinksForLookup path >>= run other := by
  by_cases hp : ∀ hop ∈ fs.vfs.hops .preserve maxLinks path, root <+: hop
  case neg =>
    have ⟨left, right, h₁, h₂, ha⟩ := exists_apart hr hp
    refine ⟨left, right, h₁, h₂, ?_⟩
    simpa only [resolveParentSymlinksForLookup_eq] using hfirst ha
  case pos =>
    cases he : fs.resolveParentSymlinksForLookup path
    case error => exact absurd (by simpa [parentHops, he, Except.toOption] using hp) h
    case ok p =>
      rw [resolveParentSymlinksForLookup_eq] at he
      have hb := hp p (LinkTree.resolve_mem_hops he)
      have hn : ¬∀ hop ∈ further p, root <+: hop := fun hf => h fun hop hm => by
        rw [parentHops, resolveParentSymlinksForLookup_eq, he] at hm
        exact (List.mem_append.mp hm).elim (hp hop) (hf hop)
      have ⟨left, right, h₁, h₂, ha⟩ := hsecond p hb hn
      refine ⟨left, right, h₁, h₂, ?_⟩
      have hf other (hb : fs.SameBeneath root other) : other.resolveParentSymlinksForLookup path = .ok p := by
        rw [resolveParentSymlinksForLookup_eq, ← (hb.vfs.resolve_eq hp).1, he]
      simpa [hf _ h₁, hf _ h₂, bind, Except.bind] using ha

-- The metadata of a file is found for the object that the call reaches.
theorem found_metadata_ne {x y : Except SysErrNo (HostPath N × Node N)} (hn : x ≠ y) :
    (x >>= fun (target, node) => (pure (target, .ok node) : Except SysErrNo (HostPath N × Except SysErrNo (Node N)))) ≠
      (y >>= fun (target, node) => pure (target, .ok node)) := by
  cases x <;> cases y <;> simp_all [bind, Except.bind, pure, Except.pure, Prod.ext_iff]

theorem reach_apart (hr : fs.RootDirectory root) (hp : root <+: path) (h : ¬∀ hop ∈ fs.hops path call, root <+: hop) :
    fs.TellsApart root (·.reach path call) := by
  cases call
  case literal => simp [hops] at h
  case parents => exact parents_apart hr Apart.found (fun p _ hn => absurd (by simp) hn) h
  case execute => exact resolveFinal_apart hr h
  case truncate => exact parents_apart hr Apart.resolveFinal (fun p _ hn => resolveFinal_apart hr hn) h
  case change =>
    obtain ⟨left, right, h₁, h₂, hn⟩ := metadata_apart hr hp h
    exact ⟨left, right, h₁, h₂, found_metadata_ne hn⟩
  case stat =>
    refine parents_apart hr (fun ha => ?_) (fun p hp hn => ?_) h
    case refine_1 => simpa only [bind_assoc] using found_metadata_ne ha.metadataFollow
    case refine_2 =>
      obtain ⟨left, right, h₁, h₂, hn⟩ := metadata_apart hr hp hn
      exact ⟨left, right, h₁, h₂, found_metadata_ne hn⟩
  case openPath nofollow =>
    cases hd : fs.removed path
    case true => simp [hops, hd] at h
    case false =>
      simp only [hops, hd, Bool.false_eq_true, if_false] at h
      obtain ⟨left, right, h₁, h₂, hn⟩ := parents_apart hr Apart.finalComponent
        (fun p hp hn => finalComponent_apart hr hp hn) h
      refine ⟨left, right, h₁, h₂, ?_⟩
      simpa only [reach, ← h₁.removed path hp, ← h₂.removed path hp, hd, Bool.false_eq_true, if_false] using hn

end

theorem finalComponent_confined (hb : fs.SameBeneath root other) (hp : root <+: path)
    (h : ∀ hop ∈ fs.finalComponentHops path nofollow, root <+: hop) :
    other.resolveFinalComponentSymlink path nofollow = fs.resolveFinalComponentSymlink path nofollow ∧
    ∀ q, fs.resolveFinalComponentSymlink path nofollow = .ok q → root <+: q := by
  simp only [resolveFinalComponentSymlink, ← (hb.sameAt hp).lookupSymlinkTarget]
  cases hl : fs.lookupSymlinkTarget path
  case error => simp [bind, Except.bind]
  case ok link =>
    cases link
    case none =>
      simp only [bind, Except.bind, pure, Except.pure, true_and]
      intro q he
      cases he
      exact hp
    case some target =>
      cases nofollow
      case true => simp [bind, Except.bind, throw, throwThe, MonadExceptOf.throw]
      case false =>
        have hh : ∀ hop ∈ fs.vfs.hops .follow maxLinks (symlinkTargetPath path target), root <+: hop := by
          simpa [finalComponentHops, vfs, hl, Except.map] using h
        have he := (hb.vfs.resolve_eq hh).1
        simp only [bind, Except.bind, resolvePathSymlinks, Bool.false_eq_true, if_false, he, true_and]
        intro q hr
        exact hh q (LinkTree.resolve_mem_hops (he.trans hr))

theorem resolveFinal_confined (hb : fs.SameBeneath root other)
    (h : ∀ hop ∈ fs.vfs.hops .follow maxLinks path, root <+: hop) :
    other.resolveFinalSymlink path false = fs.resolveFinalSymlink path false ∧
    ∀ q, fs.resolveFinalSymlink path false = .ok q → root <+: q :=
  ⟨(hb.vfs.resolve_eq h).1.symm, fun q hr => h q (LinkTree.resolve_mem_hops hr)⟩

-- A call that finds an object beneath the directory.
theorem found_confined {object : Except SysErrNo (Node N)} (hb : fs.SameBeneath root other) (hp : root <+: path) :
    ((pure (fs.found path) : Except SysErrNo _) = .ok (target, object) → root <+: target) ∧
    (pure (other.found path) : Except SysErrNo _) = pure (fs.found path) := by
  refine ⟨fun h => ?_, by simp [found, hb.lookup hp]⟩
  cases h
  exact hp

-- A computation of a path beneath the directory, and what is done with the path.
theorem bind_confined {α β : Type} {x y : Except SysErrNo α} {run other : α → Except SysErrNo β} {result : β}
    {P : Prop} (he : y = x) (h : ∀ a, x = .ok a → (run a = .ok result → P) ∧ other a = run a) :
    ((x >>= run) = .ok result → P) ∧ (y >>= other) = (x >>= run) := by
  subst he
  cases y
  case error => simp [bind, Except.bind]
  case ok a => exact h a rfl

theorem found_metadata_confined {x y : Except SysErrNo (HostPath N × Node N)} (he : y = x)
    (hx : ∀ q node, x = .ok (q, node) → root <+: q) (object : Except SysErrNo (Node N)) :
    ((x >>= fun (target, node) => (pure (target, .ok node) : Except SysErrNo (HostPath N × Except SysErrNo (Node N))))
      = .ok (target, object) → root <+: target) ∧
    (y >>= fun (target, node) => (pure (target, .ok node) : Except SysErrNo (HostPath N × Except SysErrNo (Node N)))) =
      (x >>= fun (target, node) => pure (target, .ok node)) := by
  apply bind_confined he
  rintro ⟨q, node⟩ hq
  refine ⟨fun h => ?_, rfl⟩
  cases h
  exact hx _ _ hq

variable (target) in
theorem reach_confined (hb : fs.SameBeneath root other) (hp : root <+: path)
    (h : ∀ hop ∈ fs.hops path call, root <+: hop) (object : Except SysErrNo (Node N)) :
    (fs.reach path call = .ok (target, object) → root <+: target) ∧ other.reach path call = fs.reach path call := by
  have hparents {α : Type} {run : Namespace N → HostPath N → Except SysErrNo α} {further} {result : α} {P : Prop}
      (hh : ∀ hop ∈ fs.parentHops path further, root <+: hop)
      (hrun : ∀ p, root <+: p → (∀ hop ∈ further p, root <+: hop) →
        (run fs p = .ok result → P) ∧ run other p = run fs p) :
      ((fs.resolveParentSymlinksForLookup path >>= run fs) = .ok result → P) ∧
      (other.resolveParentSymlinksForLookup path >>= run other) = (fs.resolveParentSymlinksForLookup path >>= run fs) := by
    obtain ⟨he, hs⟩ := parents_confined hb hh
    exact bind_confined he.symm fun p hr => hrun p (hs p hr).1 (hs p hr).2
  have hfinal {p : HostPath N} (hh : ∀ hop ∈ fs.vfs.hops .follow maxLinks p, root <+: hop) :
      ((fs.resolveFinalSymlink p false >>= fun q => pure (fs.found q)) = .ok (target, object) → root <+: target) ∧
      (other.resolveFinalSymlink p false >>= fun q => pure (other.found q)) =
        (fs.resolveFinalSymlink p false >>= fun q => pure (fs.found q)) := by
    obtain ⟨he, hx⟩ := resolveFinal_confined hb hh
    exact bind_confined he fun q hq => found_confined hb (hx q hq)
  cases call
  case literal => exact found_confined hb hp
  case parents =>
    apply hparents h
    intro p hp _
    exact found_confined hb hp
  case execute => exact hfinal h
  case truncate =>
    apply hparents h
    intro p _ hh
    exact hfinal hh
  case change =>
    obtain ⟨he, hx⟩ := metadata_confined hb hp h
    exact found_metadata_confined he hx object
  case stat =>
    apply hparents h
    intro p hp hh
    obtain ⟨he, hx⟩ := metadata_confined hb hp hh
    exact found_metadata_confined he hx object
  case openPath nofollow =>
    simp only [reach, hops, ← hb.removed path hp] at h ⊢
    cases hd : fs.removed path
    case true => exact found_confined hb hp
    case false =>
      simp only [hd, Bool.false_eq_true, if_false] at h ⊢
      apply hparents h
      intro p hp hh
      obtain ⟨he, hx⟩ := finalComponent_confined hb hp hh
      exact bind_confined he fun q hq => found_confined hb (hx q hq)

end Calls

-- A memory file system with a directory 0 and a regular file 2 in its root, and a link to the file in the
-- directory.
def linkOut : Namespace Nat where
  removed _ := false
  tmpfs _   := true
  mem path  :=
    if path = [] then some (.directory ⟨1, 0o755, 0, 0⟩)
    else if path = [0] then some (.directory ⟨2, 0o755, 0, 0⟩)
    else if path = [0, 1] then some (.symlink ⟨true, [.name 2]⟩ ⟨3, 0o777, 0, 0⟩)
    else if path = [2] then some (.regular ⟨4, 0o600, 0, 0⟩)
    else none
  disk _    := none
  closed    := closed_of_empty

theorem linkOut_rootDirectory : linkOut.RootDirectory [0] := by
  intro part hp
  have hc : part = [] ∨ part = [0] := by
    cases part
    case nil => exact .inl rfl
    case cons c part => simp_all
  cases hc
  case inl he => subst he; exact ⟨rfl, _, rfl⟩
  case inr he => subst he; exact ⟨rfl, _, rfl⟩

end Namespace

end WllOs.Fs
