import WllOs.Fs.Theorems.Ext4Rename

namespace WllOs.Fs

open Faults Program Ext4Inodes Ext4Namespace

variable {fs fs' : Ext4Namespace} {faults : Nat → Option SysErrNo} {err : SysErrNo} {n m : Nat}
variable {rename : Ext4Rename} {oldDir newDir old new temp path : HostPath String} {noReplace : Bool}
variable {ino d c : Nat} {name : String}

namespace Ext4Rename

@[simp] theorem kind_removed : ((rename.removed fs).inodes ino).kind = (fs.inodes ino).kind := by
  simp [removed, added, Ext4Namespace.withInodes]

@[simp] theorem kind_moved : ((rename.moved fs).inodes ino).kind = (fs.inodes ino).kind := by
  rw [moved]
  split
  case isTrue => simp [reparented, Ext4Namespace.invalidateNamespace, Ext4Namespace.withInodes]
  case isFalse => simp [Ext4Namespace.invalidateNamespace]

theorem seen_moved : (rename.moved fs).seen ino = ((rename.moved fs).inodes ino).entries := by
  rw [moved]
  split <;> rfl

end Ext4Rename

namespace Ext4Namespace.Coherent

-- What a path goes through is there, too.
theorem walk_of_isPrefix (h : fs.Coherent) (hp : path <+: new) (hw : fs.walk ROOT_INODE new = some c) :
    ∃ d, fs.walk ROOT_INODE path = some d := by
  obtain ⟨rest, rfl⟩ := hp
  by_cases hr : rest = []
  case pos => exact ⟨c, by simpa [hr] using hw⟩
  case neg =>
    have ⟨d, hw, _⟩ := h.walk_append hr hw
    exact ⟨d, hw⟩

-- No path goes on behind a file.
theorem not_isPrefix (h : fs.Coherent) (ho : fs.walk ROOT_INODE old = some ino)
    (hd : (fs.inodes ino).kind = .directory → ¬old <+: path) (hne : old ≠ path)
    (hw : fs.walk ROOT_INODE path = some c) : ¬old <+: path := by
  intro hp
  obtain ⟨rest, rfl⟩ := id hp
  have hr : rest ≠ [] := fun hr => hne (by simp [hr])
  obtain ⟨d, hwd, hk⟩ := h.walk_append hr hw
  cases ho.symm.trans hwd
  exact hd hk hp

section Moved

variable (h : fs.Coherent) (hp : rename.Places fs oldDir newDir) (he : rename.newExisting = none)
  (hn : rename.newName ≠ "." ∧ rename.newName ≠ "..")
include h hp he hn

theorem not_mem_new : (rename.newName, c) ∉ (fs.inodes rename.newParentIno).entries :=
  fun hm => h.not_names_new hp he ⟨hm, hn⟩

theorem nodup_added : (((rename.added fs).inodes ino).entries.map Prod.fst).Nodup :=
  nodup_addEntry (h.tree.nodup ino) fun _ => h.not_mem_new hp he hn

theorem names_removed : (rename.removed fs).inodes.Names d name c ↔
    fs.inodes.Names d name c ∧ ¬(d = rename.oldParentIno ∧ name = rename.oldName) ∨
      d = rename.newParentIno ∧ name = rename.newName ∧ c = rename.oldIno := by
  have hr : (rename.removed fs).inodes.Names d name c ↔
      (rename.added fs).inodes.Names d name c ∧ ¬(d = rename.oldParentIno ∧ name = rename.oldName) :=
    names_removeEntry (h.nodup_added hp he hn)
  have ha : (rename.added fs).inodes.Names d name c ↔
      fs.inodes.Names d name c ∨ d = rename.newParentIno ∧ name = rename.newName ∧ c = rename.oldIno :=
    names_addEntry hn
  rw [hr, ha, or_and_right]
  refine or_congr_right ⟨And.left, fun hc => ⟨hc, fun ho => h.not_same_name hp ?_⟩⟩
  exact ⟨hc.left ▸ ho.left, hc.right.left ▸ ho.right⟩

theorem names_moved : (rename.moved fs).inodes.Names d name c ↔
    fs.inodes.Names d name c ∧ ¬(d = rename.oldParentIno ∧ name = rename.oldName) ∨
      d = rename.newParentIno ∧ name = rename.newName ∧ c = rename.oldIno := by
  rw [← h.names_removed hp he hn, Ext4Rename.moved]
  split
  case isTrue =>
    change ((rename.reparented fs).inodes).Names d name c ↔ _
    simp only [Ext4Rename.reparented, withInodes, names_setLinksCount, names_addEntry_dots, names_removeEntry_dots]
  case isFalse => rfl

theorem moved : (rename.moved fs).Coherent := by
  have hnames {d c : Nat} {name : String} := @names_moved _ _ _ _ d c name h hp he hn
  have hremoved (ino : Nat) : (((rename.removed fs).inodes ino).entries.map Prod.fst).Nodup :=
    nodup_removeEntry (h.nodup_added hp he hn)
  have hold := h.names_old hp
  refine { tree := { root := ?root, unnamed := ?unnamed, nodup := ?nodup, single := ?single }, seen := ?seen }
  case root => rw [Ext4Rename.kind_moved, h.tree.root]
  case unnamed =>
    intro parent name hc
    cases hnames.mp hc
    case inl hc => exact h.tree.unnamed parent name hc.left
    case inr hc => exact h.tree.unnamed _ _ (hc.right.right ▸ hold)
  case nodup =>
    intro ino
    rw [Ext4Rename.moved]
    split
    case isTrue =>
      change (((rename.reparented fs).inodes ino).entries.map Prod.fst).Nodup
      simp only [Ext4Rename.reparented, withInodes, entries_setLinksCount]
      exact nodup_addEntry (nodup_removeEntry (hremoved ino)) fun c => not_mem_removeEntry (hremoved _)
    case isFalse => exact hremoved ino
  case single =>
    intro parent name parent' name' child hc hc' hk
    rw [Ext4Rename.kind_moved] at hk
    obtain hc | ⟨rfl, rfl, rfl⟩ := hnames.mp hc
    case inl =>
      obtain hc' | ⟨rfl, rfl, rfl⟩ := hnames.mp hc'
      case inl => exact h.tree.single _ _ _ _ _ hc.left hc'.left hk
      case inr => exact absurd (h.tree.single _ _ _ _ _ hc.left hold hk) hc.right
    case inr =>
      obtain hc' | ⟨rfl, rfl, _⟩ := hnames.mp hc'
      case inl => exact absurd (h.tree.single _ _ _ _ _ hc'.left hold hk) hc'.right
      case inr => exact ⟨rfl, rfl⟩
  case seen => exact fun ino => Ext4Rename.seen_moved

-- A path that does not go through one of the two names leads where it did.
theorem walk_moved (ho : ¬oldDir ++ [rename.oldName] <+: path) (hnew : ¬newDir ++ [rename.newName] <+: path) :
    (rename.moved fs).walk ROOT_INODE path = fs.walk ROOT_INODE path := by
  have hmoved := h.moved hp he hn
  induction path using List.reverseRecOn
  case nil => rfl
  case append_singleton start last hi =>
    have hi := hi (fun h => ho (h.trans (List.prefix_append _ _))) fun h => hnew (h.trans (List.prefix_append _ _))
    refine Option.ext fun c => ?_
    rw [hmoved.walk_concat, h.walk_concat, hi]
    refine exists_congr fun d => and_congr_right fun hw => ?_
    rw [Ext4Rename.kind_moved]
    refine and_congr_right fun hk => ?_
    rw [h.names_moved hp he hn]
    have hno : ¬(d = rename.oldParentIno ∧ last = rename.oldName) := by
      rintro ⟨rfl, rfl⟩
      exact ho (h.walk_unique hw hp.oldParent hk ▸ List.prefix_rfl)
    have hnn : ¬(d = rename.newParentIno ∧ last = rename.newName ∧ c = rename.oldIno) := by
      rintro ⟨rfl, rfl, _⟩
      exact hnew (h.walk_unique hw hp.newParent hk ▸ List.prefix_rfl)
    simp only [hno, hnn, not_false_eq_true, and_true, or_false]

theorem walk_moved_oldDir : (rename.moved fs).walk ROOT_INODE oldDir = some rename.oldParentIno := by
  rw [h.walk_moved hp he hn, hp.oldParent]
  case ho => exact fun h => absurd h.length_le (by simp)
  case hnew =>
    intro hpre
    have ⟨_, hw⟩ := h.walk_of_isPrefix hpre hp.oldParent
    cases (resolveExisting_eq_none.mp (hp.newExisting.symm.trans he)).symm.trans hw

theorem walk_moved_newDir : (rename.moved fs).walk ROOT_INODE newDir = some rename.newParentIno := by
  rw [h.walk_moved hp he hn, hp.newParent]
  case hnew => exact fun h => absurd h.length_le (by simp)
  case ho =>
    intro hpre
    have hbelow := fun hk => hp.below hk (hpre.trans (List.prefix_append _ _))
    by_cases hne : oldDir ++ [rename.oldName] = newDir
    case pos =>
      have hi : rename.oldIno = rename.newParentIno := Option.some.inj (hp.old.symm.trans (hne ▸ hp.newParent))
      exact hbelow (by rw [hp.oldKind, hi, hp.newParentKind])
    case neg =>
      exact h.not_isPrefix hp.old (fun hk => absurd hpre fun _ => hbelow (hp.oldKind.trans hk)) hne hp.newParent hpre

theorem walk_moved_new : (rename.moved fs).walk ROOT_INODE (newDir ++ [rename.newName]) = some rename.oldIno := by
  rw [(h.moved hp he hn).walk_concat]
  refine ⟨_, h.walk_moved_newDir hp he hn, ?_, (h.names_moved hp he hn).mpr (.inr ⟨rfl, rfl, rfl⟩)⟩
  rw [Ext4Rename.kind_moved, hp.newParentKind]

theorem walk_moved_old : (rename.moved fs).walk ROOT_INODE (oldDir ++ [rename.oldName]) = none := by
  by_contra hw
  obtain ⟨c, hw⟩ := Option.ne_none_iff_exists'.mp hw
  obtain ⟨d, hwd, _, hc⟩ := (h.moved hp he hn).walk_concat.mp hw
  cases (h.walk_moved_oldDir hp he hn).symm.trans hwd
  obtain hc | ⟨hd, hname, _⟩ := (h.names_moved hp he hn).mp hc
  case inl => exact hc.right ⟨rfl, rfl⟩
  case inr => exact h.not_same_name hp ⟨hd.symm, hname.symm⟩

end Moved

end Ext4Namespace.Coherent

theorem exchangeName_ne (oldIno newIno attempt : Nat) :
    exchangeName oldIno newIno attempt ≠ "." ∧ exchangeName oldIno newIno attempt ≠ ".." := by
  have hl : 21 ≤ (exchangeName oldIno newIno attempt).length := by
    have hstart : ".wll_rename_exchange_".length = 21 := rfl
    unfold exchangeName
    simp only [String.length_append]
    omega
  constructor
  case left =>
    intro h
    have hlen : ".".length = 1 := rfl
    rw [h] at hl
    omega
  case right =>
    intro h
    have hlen : "..".length = 2 := rfl
    rw [h] at hl
    omega

namespace Ext4Namespace

theorem Coherent.exchangeTarget_ok (h : fs.Coherent) (ht : fs.exchangeTarget old new = .ok (some temp)) :
    ∃ (exchange : Ext4Exchange) (oldDir newDir : HostPath String), old = oldDir ++ [exchange.oldName] ∧
      new = newDir ++ [exchange.newName] ∧ temp = oldDir ++ [exchange.tempName] ∧ exchange.Places fs oldDir newDir := by
  simp only [exchangeTarget] at ht
  by_cases hne : old = new
  case pos => simp [hne] at ht
  rw [if_neg hne] at ht
  have ⟨hroot, ht⟩ := Fallible.guard_ok ht
  rw [not_or] at hroot
  obtain ⟨oldDir, oldName, rfl⟩ := List.eq_nil_or_concat' old |>.resolve_left hroot.left
  obtain ⟨newDir, newName, rfl⟩ := List.eq_nil_or_concat' new |>.resolve_left hroot.right
  rw [splitParentName_concat] at ht
  cases hro : fs.resolveExisting (oldDir ++ [oldName])
  case none => simp [hro] at ht
  cases hrn : fs.resolveExisting (newDir ++ [newName])
  case some.none => simp [hro, hrn] at ht
  rename_i fo fn
  obtain ⟨oldIno, oldKind⟩ := fo
  obtain ⟨newIno, newKind⟩ := fn
  simp only [hro, hrn] at ht
  have ⟨hdo, hrest⟩ := Fallible.guard_ok ht
  have ⟨hdn, hfind⟩ := Fallible.guard_ok hrest
  clear ht hrest
  obtain ⟨hwo, rfl⟩ := resolveExisting_eq_some.mp hro
  obtain ⟨hwn, rfl⟩ := resolveExisting_eq_some.mp hrn
  cases hf : ((List.range 32).map fun attempt => oldDir ++ [exchangeName oldIno newIno attempt]).find?
      fun temp => (fs.resolveExisting temp).isNone
  case none =>
    rw [hf] at hfind
    cases hfind
  rename_i found
  rw [hf] at hfind
  cases hfind
  have hnone := List.find?_some hf
  obtain ⟨attempt, _, rfl⟩ := List.mem_map.mp (List.mem_of_find?_eq_some hf)
  obtain ⟨op, hop, hopk, _⟩ := h.walk_concat.mp hwo
  obtain ⟨np, hnp, hnpk, _⟩ := h.walk_concat.mp hwn
  refine ⟨⟨op, oldName, np, newName, exchangeName oldIno newIno attempt, oldIno, newIno⟩, oldDir, newDir, rfl, rfl, rfl,
    ?_⟩
  refine { oldParent := hop, oldParentKind := hopk, newParent := hnp, newParentKind := hnpk, old := hwo, new := hwn,
           temp := ?temp, tempName := exchangeName_ne _ _ _, ne := hne, oldBelow := ?oldBelow, newBelow := ?newBelow }
  case temp => exact resolveExisting_eq_none.mp (by simpa using hnone)
  case oldBelow =>
    exact h.not_isPrefix hwo (fun hk hp => hdo ⟨hk, pathIsDescendant_iff.mpr ⟨hp, hne⟩⟩) hne hwn
  case newBelow =>
    exact h.not_isPrefix hwn (fun hk hp => hdn ⟨hk, pathIsDescendant_iff.mpr ⟨hp, Ne.symm hne⟩⟩) (Ne.symm hne) hwo

end Ext4Namespace

namespace Ext4Exchange.Places

variable {exchange : Ext4Exchange} (hx : exchange.Places fs oldDir newDir) (h : fs.Coherent)
include hx

theorem tempName_ne : exchange.tempName ≠ exchange.oldName := by
  intro he
  have := he ▸ hx.temp
  cases this.symm.trans hx.old

theorem not_temp_isPrefix (h : fs.Coherent) (hw : fs.walk ROOT_INODE path = some c) :
    ¬oldDir ++ [exchange.tempName] <+: path := by
  intro hp
  have ⟨_, hd⟩ := h.walk_of_isPrefix hp hw
  cases hx.temp.symm.trans hd

theorem not_new_isPrefix_temp : ¬newDir ++ [exchange.newName] <+: oldDir ++ [exchange.tempName] := by
  intro hp
  cases List.prefix_concat_iff.mp hp
  case inl he => cases hx.temp.symm.trans (he ▸ hx.new)
  case inr hp => exact hx.newBelow (hp.trans (List.prefix_append _ _))

theorem not_old_isPrefix_temp : ¬oldDir ++ [exchange.oldName] <+: oldDir ++ [exchange.tempName] := by
  intro hp
  have he := hp.eq_of_length (by simp)
  exact hx.tempName_ne (List.singleton_inj.mp (List.append_cancel_left he)).symm

theorem not_temp_isPrefix_old : ¬oldDir ++ [exchange.tempName] <+: oldDir ++ [exchange.oldName] := by
  intro hp
  have he := hp.eq_of_length (by simp)
  exact hx.tempName_ne (List.singleton_inj.mp (List.append_cancel_left he))

theorem first : (exchange.first fs).Places fs oldDir oldDir where
  oldParent := hx.oldParent
  oldParentKind := hx.oldParentKind
  newParent := hx.oldParent
  newParentKind := hx.oldParentKind
  old := hx.old
  oldKind := rfl
  ne := fun he => hx.not_old_isPrefix_temp (he ▸ List.prefix_rfl)
  below := fun _ => hx.not_old_isPrefix_temp
  newExisting := (resolveExisting_eq_none.mpr hx.temp).symm
  existing := nofun

include h

theorem coherent_first : ((exchange.first fs).moved fs).Coherent :=
  h.moved hx.first rfl hx.tempName

theorem walk_first (hw : fs.walk ROOT_INODE path = some c) (ho : ¬oldDir ++ [exchange.oldName] <+: path) :
    ((exchange.first fs).moved fs).walk ROOT_INODE path = some c :=
  (h.walk_moved hx.first rfl hx.tempName ho (hx.not_temp_isPrefix h hw)).trans hw

theorem second : (exchange.second fs).Places ((exchange.first fs).moved fs) newDir oldDir where
  oldParent := hx.walk_first h hx.newParent fun hp => hx.oldBelow (hp.trans (List.prefix_append _ _))
  oldParentKind := Ext4Rename.kind_moved.trans hx.newParentKind
  newParent := h.walk_moved_oldDir hx.first rfl hx.tempName
  newParentKind := Ext4Rename.kind_moved.trans hx.oldParentKind
  old := hx.walk_first h hx.new hx.oldBelow
  oldKind := Ext4Rename.kind_moved.symm
  ne := Ne.symm hx.ne
  below := fun _ => hx.newBelow
  newExisting := (resolveExisting_eq_none.mpr (h.walk_moved_old hx.first rfl hx.tempName)).symm
  existing := nofun

theorem back : (exchange.back fs).Places ((exchange.first fs).moved fs) oldDir oldDir where
  oldParent := h.walk_moved_oldDir hx.first rfl hx.tempName
  oldParentKind := Ext4Rename.kind_moved.trans hx.oldParentKind
  newParent := h.walk_moved_oldDir hx.first rfl hx.tempName
  newParentKind := Ext4Rename.kind_moved.trans hx.oldParentKind
  old := h.walk_moved_new hx.first rfl hx.tempName
  oldKind := Ext4Rename.kind_moved.symm
  ne := fun he => hx.not_old_isPrefix_temp (he ▸ List.prefix_rfl)
  below := fun _ => hx.not_temp_isPrefix_old
  newExisting := (resolveExisting_eq_none.mpr (h.walk_moved_old hx.first rfl hx.tempName)).symm
  existing := nofun

variable (hn : exchange.oldName ≠ "." ∧ exchange.oldName ≠ "..")
include hn

theorem third : (exchange.third fs).Places
    ((exchange.second fs).moved ((exchange.first fs).moved fs)) oldDir newDir := by
  have h1 := hx.coherent_first h
  have htemp : ((exchange.second fs).moved ((exchange.first fs).moved fs)).walk ROOT_INODE
      (oldDir ++ [exchange.tempName]) = some exchange.oldIno :=
    (h1.walk_moved (hx.second h) rfl hn hx.not_new_isPrefix_temp hx.not_old_isPrefix_temp).trans
      (h.walk_moved_new hx.first rfl hx.tempName)
  exact {
    oldParent := h1.walk_moved_newDir (hx.second h) rfl hn
    oldParentKind := Ext4Rename.kind_moved.trans (hx.second h).newParentKind
    newParent := h1.walk_moved_oldDir (hx.second h) rfl hn
    newParentKind := Ext4Rename.kind_moved.trans (hx.second h).oldParentKind
    old := htemp
    oldKind := (Ext4Rename.kind_moved.trans Ext4Rename.kind_moved).symm
    ne := fun he => hx.not_temp_isPrefix h hx.new (he ▸ List.prefix_rfl)
    below := fun _ => hx.not_temp_isPrefix h hx.new
    newExisting := (resolveExisting_eq_none.mpr (h1.walk_moved_old (hx.second h) rfl hn)).symm
    existing := nofun }

end Ext4Exchange.Places

section Steps

theorem renameExt4Locked_eq (ht : fs.renameTarget old new noReplace = .ok (some rename))
    (he : rename.newExisting = none) : renameExt4Locked old new noReplace faults fs n = rename.move faults fs n := by
  simp only [renameExt4Locked, get_bind, ht, lift_ok_bind]
  rw [when_neg (by simp [he]), when_neg (by simp [he]), ok_bind, ok_bind]

-- A rename that replaces nothing takes nothing away but the old name.
theorem keeps_names_renameExt4Locked {oldName : String} (hne : name ≠ oldName) :
    Keeps (fun s => s.inodes.Names d name c) (renameExt4Locked (oldDir ++ [oldName]) new true) := by
  intro faults fs n hs
  cases ht : fs.renameTarget (oldDir ++ [oldName]) new true
  case error err =>
    simp only [renameExt4Locked, get_bind, ht, lift_error_bind]
    exact hs
  case ok found =>
    cases found
    case none =>
      simp only [renameExt4Locked, get_bind, ht, lift_ok_bind, pure_apply]
      exact hs
    case some rename =>
      obtain ⟨oldDir', newDir, ho, _, _, hr⟩ := renameTarget_ok ht
      rw [renameExt4Locked_eq ht (hr rfl)]
      have hname := (List.append_inj' ho rfl).right
      cases List.singleton_inj.mp hname
      exact Ext4Rename.keeps_names_move (fun h => hne h.right) faults fs n hs

-- The lookups of a rename depend on what is seen, and on the kinds.
theorem renameTarget_congr (hs : fs'.seen = fs.seen) (hk : ∀ ino, (fs'.inodes ino).kind = (fs.inodes ino).kind) :
    fs'.renameTarget old new noReplace = fs.renameTarget old new noReplace := by
  have hr (path : HostPath String) := @resolveExisting_congr fs fs' path hs hk
  have hc (ino : Nat) : fs'.cachedDirEntries ino = fs.cachedDirEntries ino := by
    rw [cachedDirEntries, cachedDirEntries, hs]
  simp only [renameTarget, hr, hc]

end Steps

theorem nameCount_added {total : Nat} (ht : rename.newParentIno < total)
    (hn : rename.newName ≠ "." ∧ rename.newName ≠ "..") :
    (rename.added fs).inodes.nameCount total rename.oldIno = fs.inodes.nameCount total rename.oldIno + 1 := by
  rw [nameCount, Ext4Rename.added, withInodes, count_addEntry ht]
  simp [nameCount, hn]

-- The names of an inode, when a rename from a directory to itself has come to an end.
theorem nameCount_le_move {total : Nat} (hm : (rename.oldName, rename.oldIno) ∈ (fs.inodes rename.oldParentIno).entries)
    (hp : rename.newParentIno = rename.oldParentIno) (ht : rename.oldParentIno < total)
    (hn : rename.newName ≠ "." ∧ rename.newName ≠ "..") {result : Except SysErrNo Unit}
    (h : rename.move faults fs n = ⟨result, fs', m⟩) :
    fs.inodes.nameCount total rename.oldIno ≤ fs'.inodes.nameCount total rename.oldIno := by
  have hadd := @nameCount_added fs rename total (hp ▸ ht) hn
  cases result
  case error err =>
    obtain ⟨_, rfl, _⟩ | ⟨_, ⟨_, rfl⟩ | ⟨_, hc, _⟩⟩ := Ext4Rename.move_error hm h
    case inl => exact le_rfl
    case inr.inl => omega
    case inr.inr => exact absurd hp.symm hc
  case ok =>
    obtain ⟨_, _, rfl, _⟩ := Ext4Rename.move_ok h
    rw [Ext4Rename.moved, if_neg fun h => h.left hp.symm]
    have := @count_le_removeEntry (rename.added fs).inodes rename.oldParentIno rename.oldName total
      (fun entry => entry.snd = rename.oldIno && entry.fst ≠ "." && entry.fst ≠ "..") ht
    change _ ≤ ((rename.removed fs).inodes).nameCount total rename.oldIno
    simp only [nameCount, Ext4Rename.removed, withInodes] at hadd ⊢
    omega

namespace Ext4Namespace.WellFormed

variable {exchange : Ext4Exchange} (h : fs.WellFormed) (hx : exchange.Places fs oldDir newDir)
include h hx

-- The first rename is taken back.
theorem intact_back : fs.Intact ((exchange.back fs).moved ((exchange.first fs).moved fs)) := by
  have hinodes : ((exchange.back fs).moved ((exchange.first fs).moved fs)).inodes =
      (((fs.inodes.addEntry exchange.oldParentIno exchange.tempName exchange.oldIno).removeEntry
        exchange.oldParentIno exchange.oldName).addEntry exchange.oldParentIno exchange.oldName
        exchange.oldIno).removeEntry exchange.oldParentIno exchange.tempName := by
    rw [Ext4Rename.moved, if_neg fun h => h.left rfl, Ext4Rename.moved, if_neg fun h => h.left rfl]
    rfl
  have hcache : ((exchange.back fs).moved ((exchange.first fs).moved fs)).regularCache = fs.regularCache := by
    rw [Ext4Rename.moved, if_neg fun h => h.left rfl, Ext4Rename.moved, if_neg fun h => h.left rfl]
    rfl
  refine h.intact_of_perm (fun ino => ?entries) (fun ino => ?links) (fun d name c _ => ?kinds)
    fun ino data hd => ?cached
  case entries =>
    rw [hinodes]
    by_cases hi : ino = exchange.oldParentIno
    case neg =>
      rw [entries_removeEntry_of_ne hi, entries_addEntry_of_ne hi, entries_removeEntry_of_ne hi,
        entries_addEntry_of_ne hi]
    case pos =>
      rw [hi, entries_removeEntry, entries_addEntry, entries_removeEntry, entries_addEntry]
      exact perm_taken_back (h.tree.nodup _) (h.names_old hx.first).left
        (fun c => h.not_mem_new hx.first rfl hx.tempName) hx.tempName_ne
  case links => simp [hinodes]
  case kinds => simp [hinodes]
  case cached => simp [content, hcache, hd]

omit h in
theorem first_eq : renameExt4Locked (oldDir ++ [exchange.oldName]) (oldDir ++ [exchange.tempName]) true faults fs n =
    (exchange.first fs).move faults fs n :=
  renameExt4Locked_eq (renameTarget_of_places hx.first rfl) rfl

theorem second_eq : renameExt4Locked (newDir ++ [exchange.newName]) (oldDir ++ [exchange.oldName]) true faults
    ((exchange.first fs).moved fs) n = (exchange.second fs).move faults ((exchange.first fs).moved fs) n :=
  renameExt4Locked_eq (renameTarget_of_places (hx.second h.toCoherent) rfl) rfl

-- The lookups of the last rename find the names as they were after the first one.
theorem back_eq {s : Ext4Namespace} (hs : s.seen = ((exchange.first fs).moved fs).seen)
    (hk : ∀ ino, (s.inodes ino).kind = (fs.inodes ino).kind) :
    renameExt4Locked (oldDir ++ [exchange.tempName]) (oldDir ++ [exchange.oldName]) true faults s n =
      (exchange.back fs).move faults s n := by
  have hc := @renameTarget_congr ((exchange.first fs).moved fs) s (oldDir ++ [exchange.tempName])
    (oldDir ++ [exchange.oldName]) true hs fun ino => (hk ino).trans Ext4Rename.kind_moved.symm
  exact renameExt4Locked_eq (hc.trans (renameTarget_of_places (hx.back h.toCoherent) rfl)) rfl

-- In the end the names are as they were before only if nothing has been moved.
theorem not_intact_of_temp (hn : fs'.inodes.Names exchange.oldParentIno exchange.tempName c) : ¬fs.Intact fs' :=
  fun hi => h.not_names_new hx.first rfl ((hi.names _ _ _).mp hn)

theorem not_intact_of_old (hne : exchange.newIno ≠ exchange.oldIno)
    (hn : fs'.inodes.Names exchange.oldParentIno exchange.oldName exchange.newIno) : ¬fs.Intact fs' := by
  intro hi
  have hnew := (hi.names _ _ _).mp hn
  exact hne (eq_of_mem (h.tree.nodup _) hnew.left (h.names_old hx.first).left)

-- Two names of one inode are not those of a directory.
theorem not_directory_of_eq (he : exchange.newIno = exchange.oldIno) :
    (fs.inodes exchange.oldIno).kind ≠ .directory := by
  intro hk
  obtain ⟨np, hw, _, hnew⟩ := h.walk_concat.mp hx.new
  cases hx.newParent.symm.trans hw
  obtain ⟨hp, hname⟩ := h.tree.single _ _ _ _ _ (h.names_old hx.first) (he ▸ hnew) hk
  have hdir := h.walk_unique hx.oldParent (hp.symm ▸ hx.newParent) hx.oldParentKind
  exact hx.ne (by rw [hdir, ← hname]; rfl)

theorem names_temp :
    ((exchange.first fs).moved fs).inodes.Names exchange.oldParentIno exchange.tempName exchange.oldIno :=
  (h.names_moved hx.first rfl hx.tempName).mpr (.inr ⟨rfl, rfl, rfl⟩)

variable (hdot : exchange.oldName ≠ "." ∧ exchange.oldName ≠ "..")
include hdot

-- The second rename fails when it has begun.
theorem not_intact_of_second {s : Ext4Namespace} {k : Nat} {result : Except SysErrNo Unit}
    (hfirst : (exchange.first fs).move faults fs 0 = ⟨.ok (), (exchange.first fs).moved fs, 2⟩)
    (hs : (exchange.second fs).move faults ((exchange.first fs).moved fs) n = ⟨.error err, s, k⟩) (hf : faults n = none)
    (hr : renameExt4Locked (oldDir ++ [exchange.tempName]) (oldDir ++ [exchange.oldName]) true faults s k =
      ⟨result, fs', m⟩) : ¬fs.Intact fs' := by
  have h1 := hx.coherent_first h.toCoherent
  have hsecond := hx.second h.toCoherent
  by_cases hne : exchange.newIno = exchange.oldIno
  case neg =>
    have hnames := Ext4Rename.move_names hdot (h1.not_same_name hsecond) hs hf
    refine h.not_intact_of_old hx hne ?_
    exact @Keeps.of_eq _ _ _ _ _ _ _ _
      (fun s : Ext4Namespace => s.inodes.Names exchange.oldParentIno exchange.oldName exchange.newIno) _ _
      (keeps_names_renameExt4Locked (Ne.symm hx.tempName_ne)) hnames hr
  case pos =>
    have hk := h.not_directory_of_eq hx hne
    have hrange := h.directories _ hx.oldParentKind
    obtain ⟨hf', _⟩ | ⟨_, ⟨_, rfl⟩ | ⟨_, _, hd⟩⟩ := Ext4Rename.move_error (h1.names_old hsecond).left hs
    case inl => exact fun _ => hf' hf
    case inr.inr => exact fun _ => hk (hne ▸ hd)
    case inr.inl =>
      rw [h.back_eq hx (s := (exchange.second fs).added ((exchange.first fs).moved fs)) rfl
        fun ino => kind_addEntry.trans Ext4Rename.kind_moved] at hr
      have htemp : ((exchange.second fs).added ((exchange.first fs).moved fs)).inodes.Names exchange.oldParentIno
          exchange.tempName exchange.oldIno := (names_addEntry hdot).mpr (.inl (h.names_temp hx))
      have hle := nameCount_le_move (h.names_old hx.first).left rfl hrange hx.tempName hfirst
      have hadd := @nameCount_added ((exchange.first fs).moved fs) (exchange.second fs) _ hrange hdot
      have hle' := @nameCount_le_move _ _ _ _ _ (exchange.back fs) _ htemp.left rfl hrange hdot _ hr
      intro hi
      have he := hi.nameCount exchange.oldIno
      simp only [Ext4Exchange.first, Ext4Exchange.second, Ext4Exchange.back, hne] at hle hadd hle'
      omega

-- The last rename fails.
theorem not_intact_of_third {k : Nat}
    (hr : (exchange.third fs).move faults ((exchange.second fs).moved ((exchange.first fs).moved fs)) n =
      ⟨.error err, fs', k⟩) : ¬fs.Intact fs' := by
  have h1 := hx.coherent_first h.toCoherent
  have h2 := h1.moved (hx.second h.toCoherent) rfl hdot
  have hthird := hx.third h.toCoherent hdot
  by_cases hne : exchange.newIno = exchange.oldIno
  case neg =>
    have hnames := (h1.names_moved (hx.second h.toCoherent) rfl hdot).mpr (.inr ⟨rfl, rfl, rfl⟩)
    refine h.not_intact_of_old hx hne ?_
    exact @Keeps.of_eq _ _ _ _ _ _ _ _
      (fun s : Ext4Namespace => s.inodes.Names exchange.oldParentIno exchange.oldName exchange.newIno) _ _
      (Ext4Rename.keeps_names_move fun h => hx.tempName_ne h.right.symm) hnames hr
  case pos =>
    have hk := h.not_directory_of_eq hx hne
    have htemp := h2.names_old hthird
    obtain ⟨_, rfl, _⟩ | ⟨_, ⟨_, rfl⟩ | ⟨_, _, hd⟩⟩ := Ext4Rename.move_error htemp.left hr
    case inl => exact h.not_intact_of_temp hx htemp
    case inr.inl =>
      exact h.not_intact_of_temp hx ⟨mem_entries_addEntry.mpr (.inl htemp.left), htemp.right⟩
    case inr.inr => exact absurd hd hk

theorem exchange_iff
    (ht : fs.exchangeTarget (oldDir ++ [exchange.oldName]) (newDir ++ [exchange.newName]) =
      .ok (some (oldDir ++ [exchange.tempName])))
    (hr : exchangeExt4 (oldDir ++ [exchange.oldName]) (newDir ++ [exchange.newName]) faults fs 0 =
      ⟨.error err, fs', m⟩) :
    fs.Intact fs' ↔ FailsAt faults 0 ∨ (FailsAt faults 2 ∧ faults 3 = none ∧ faults 4 = none) := by
  have h1 := hx.coherent_first h.toCoherent
  simp only [exchangeExt4, get_bind, ht, lift_ok_bind] at hr
  cases bind_error hr
  case inl hr =>
    rw [first_eq hx] at hr
    obtain ⟨hf, rfl, _⟩ | ⟨hf, ⟨hf', rfl⟩ | ⟨_, hc, _⟩⟩ := Ext4Rename.move_error (h.names_old hx.first).left hr
    case inl => exact iff_of_true h.intact_self (.inl ⟨nofun, hf⟩)
    case inr.inl =>
      refine iff_of_false (h.not_intact_of_temp hx ((names_addEntry hx.tempName).mpr (.inr ⟨rfl, rfl, rfl⟩))) ?_
      rintro (hs | hs)
      case inl => exact hs.right hf
      case inr => exact hf' (hs.left.left 1 (by decide))
    case inr.inr => exact absurd rfl hc
  case inr hr =>
    obtain ⟨_, s, k, hfirst, hr⟩ := hr
    rw [first_eq hx] at hfirst
    obtain ⟨hf0, hf1, rfl, hk⟩ := Ext4Rename.move_ok hfirst
    cases hk fun hc => hc.left rfl
    have hnot0 : ¬FailsAt faults 0 := fun hs => hs.right hf0
    rw [or_iff_right hnot0]
    obtain ⟨result, s, k, hsecond⟩ : ∃ result s k, renameExt4Locked (newDir ++ [exchange.newName])
      (oldDir ++ [exchange.oldName]) true faults ((exchange.first fs).moved fs) (0 + 2) = ⟨result, s, k⟩ :=
      ⟨_, _, _, rfl⟩
    rw [attempt_bind hsecond] at hr
    rw [h.second_eq hx] at hsecond
    cases result
    case ok =>
      obtain ⟨hf2, _, rfl, _⟩ := Ext4Rename.move_ok hsecond
      refine iff_of_false ?_ fun hs => hs.left.right hf2
      have hthird : renameExt4Locked (oldDir ++ [exchange.tempName]) (newDir ++ [exchange.newName]) true faults _ k =
          (exchange.third fs).move faults ((exchange.second fs).moved ((exchange.first fs).moved fs)) k :=
        renameExt4Locked_eq (renameTarget_of_places (hx.third h.toCoherent hdot) rfl) rfl
      exact h.not_intact_of_third hx hdot (hthird.symm.trans hr)
    case error err' =>
      obtain ⟨back, t, j, hback⟩ : ∃ result t j, renameExt4Locked (oldDir ++ [exchange.tempName])
        (oldDir ++ [exchange.oldName]) true faults s k = ⟨result, t, j⟩ := ⟨_, _, _, rfl⟩
      have hr : (attempt (renameExt4Locked (oldDir ++ [exchange.tempName]) (oldDir ++ [exchange.oldName]) true) >>=
        fun _ => lift (.error err')) faults s k = ⟨.error err, fs', m⟩ := hr
      rw [attempt_bind hback] at hr
      cases hr
      obtain ⟨hf2, rfl, rfl⟩ | ⟨hf2, _⟩ := Ext4Rename.move_error (h1.names_old (hx.second h.toCoherent)).left hsecond
      case inr =>
        refine iff_of_false (h.not_intact_of_second hx hdot hfirst hsecond hf2 hback) fun hs => hs.left.right hf2
      case inl =>
        rw [h.back_eq hx rfl fun ino => Ext4Rename.kind_moved] at hback
        have hfails : FailsAt faults 2 := by
          refine ⟨fun i hi => ?_, hf2⟩
          match i, hi with
          | 0, _ => exact hf0
          | 1, _ => exact hf1
        rw [and_iff_right hfails]
        cases back
        case ok =>
          obtain ⟨hf3, hf4, rfl, _⟩ := Ext4Rename.move_ok hback
          exact iff_of_true (h.intact_back hx) ⟨hf3, hf4⟩
        case error =>
          have htemp := (h1.names_old (hx.back h.toCoherent)).left
          obtain ⟨hf3, rfl, _⟩ | ⟨hf3, ⟨hf4, rfl⟩ | ⟨_, hc, _⟩⟩ := Ext4Rename.move_error htemp hback
          case inl => exact iff_of_false (h.not_intact_of_temp hx (h.names_temp hx)) fun hs => hf3 hs.left
          case inr.inl =>
            refine iff_of_false (h.not_intact_of_temp hx (c := exchange.oldIno) ?_) fun hs => hf4 hs.right
            exact (names_addEntry hdot).mpr (.inl (h.names_temp hx))
          case inr.inr => exact absurd rfl hc

end Ext4Namespace.WellFormed

namespace Ext4Namespace.WellFormed

theorem change_exact (h : fs.WellFormed) (op : Ext4Op) (hr : (op.run faults fs 0).result = .error err) :
    fs.Intact (op.run faults fs 0).state ↔ op.Survives fs faults := by
  obtain ⟨result, fs', m, hrun⟩ : ∃ result fs' m, op.run faults fs 0 = ⟨result, fs', m⟩ := ⟨_, _, _, rfl⟩
  rw [hrun] at hr ⊢
  cases hr
  cases op
  case unlink path =>
    cases ht : fs.unlinkTarget (normalizePath path)
    case error =>
      simp only [Ext4Op.run, unlinkNonDirLocked, get_bind, ht, lift_error_bind] at hrun
      cases hrun
      exact iff_of_true h.intact_self (by simp [Ext4Op.Survives, ht])
    case ok target =>
      rw [Ext4Op.Survives, h.unlink_iff ht hrun]
      simp [ht]
  case mkdir path =>
    cases ht : fs.createTarget (normalizePath path)
    case error =>
      simp only [Ext4Op.run, mkdirExt4WithMode, get_bind, ht, lift_error_bind] at hrun
      cases hrun
      exact iff_of_true h.intact_self (by simp [Ext4Op.Survives, ht])
    case ok target =>
      rw [Ext4Op.Survives, h.mkdir_iff (not_dots_mem_normalizePath path) ht hrun]
      simp [ht]
  case symlink content path =>
    cases ht : fs.createTarget (normalizePath path)
    case error =>
      simp only [Ext4Op.run, createSymlinkExt4, get_bind, ht, lift_error_bind] at hrun
      cases hrun
      exact iff_of_true h.intact_self (by simp [Ext4Op.Survives, ht])
    case ok target =>
      rw [Ext4Op.Survives, h.symlink_iff (not_dots_mem_normalizePath path) ht hrun]
      simp [ht]
  case rename old new noReplace =>
    cases ht : fs.renameTarget (normalizePath old) (normalizePath new) noReplace
    case error =>
      simp only [Ext4Op.run, renameExt4Locked, get_bind, ht, lift_error_bind] at hrun
      cases hrun
      exact iff_of_true h.intact_self (by simp [Ext4Op.Survives, ht])
    case ok target =>
      cases target
      case none =>
        simp only [Ext4Op.run, renameExt4Locked, get_bind, ht, lift_ok_bind, pure_apply] at hrun
        cases hrun
      case some rename =>
        rw [Ext4Op.Survives, h.rename_iff (not_dots_mem_normalizePath new) ht hrun]
        simp [ht]
  case exchange old new =>
    cases ht : fs.exchangeTarget (normalizePath old) (normalizePath new)
    case error =>
      simp only [Ext4Op.run, exchangeExt4, get_bind, ht, lift_error_bind] at hrun
      cases hrun
      exact iff_of_true h.intact_self (by simp [Ext4Op.Survives, ht])
    case ok target =>
      cases target
      case none =>
        simp only [Ext4Op.run, exchangeExt4, get_bind, ht, lift_ok_bind, pure_apply] at hrun
        cases hrun
      case some temp =>
        obtain ⟨exchange, oldDir, newDir, ho, hn, rfl, hx⟩ := h.exchangeTarget_ok ht
        have hdot := not_dots_mem_normalizePath old
        rw [ho, List.mem_append, List.mem_append, not_or, not_or, List.mem_singleton, List.mem_singleton] at hdot
        rw [Ext4Op.run, ho, hn] at hrun
        rw [Ext4Op.Survives, h.exchange_iff hx ⟨Ne.symm hdot.left.right, Ne.symm hdot.right.right⟩ (ho ▸ hn ▸ ht) hrun]
        simp [ht]

end Ext4Namespace.WellFormed

-- Two files in the root directory.
def twoFiles : Ext4Namespace where
  inodes ino :=
    if ino = 2 then ⟨.directory, 2, [(".", 2), ("..", 2), ("a", 3), ("b", 4)], []⟩
    else if ino = 3 ∨ ino = 4 then ⟨.regular, 1, [], []⟩
    else .new .regular
  inodesCount := 6
  freeInodes := [5]
  seen ino := if ino = 2 then [(".", 2), ("..", 2), ("a", 3), ("b", 4)] else []
  regularCache _ := none
  openRegularRefs _ := 0
  pendingUnlink := []

theorem entries_twoFiles (ino : Nat) : (twoFiles.inodes ino).entries =
    if ino = 2 then [(".", 2), ("..", 2), ("a", 3), ("b", 4)] else [] := by
  simp only [twoFiles, Ext4Inode.new]
  split
  case isTrue => rfl
  case isFalse => split <;> rfl

theorem wellFormed_twoFiles : twoFiles.WellFormed := by
  have hnames {d c : Nat} {name : String} (h : twoFiles.inodes.Names d name c) :
      d = 2 ∧ (name = "a" ∧ c = 3 ∨ name = "b" ∧ c = 4) := by
    obtain ⟨hm, hd, hdd⟩ := h
    rw [entries_twoFiles] at hm
    split at hm
    case isTrue he => exact ⟨he, by simpa [hd, hdd] using hm⟩
    case isFalse => cases hm
  refine { tree := { root := rfl, unnamed := ?_, nodup := ?_, single := ?_ }, seen := ?_, links := ?_, parents := ?_,
           directories := ?_, free := ?_ }
  case refine_1 =>
    intro d name h
    have := hnames h
    simp [ROOT_INODE] at this
  case refine_2 =>
    intro ino
    rw [entries_twoFiles]
    split <;> decide
  case refine_3 =>
    intro d name d' name' c h h' _
    have := hnames h
    have := hnames h'
    grind
  case refine_4 => exact fun ino => (entries_twoFiles ino).symm
  case refine_5 =>
    intro ino
    have hcount : twoFiles.inodes.count twoFiles.inodesCount (·.snd = ino) =
        [(".", 2), ("..", 2), ("a", 3), ("b", 4)].countP fun entry : String × Nat => entry.snd = ino := by
      simp only [count, entries_twoFiles, show twoFiles.inodesCount = 6 from rfl, Finset.sum_range_succ]
      simp
    rw [hcount]
    by_cases h2 : ino = 2
    case pos => rw [h2]; rfl
    by_cases h3 : ino = 3
    case pos => rw [h3]; rfl
    by_cases h4 : ino = 4
    case pos => rw [h4]; rfl
    simp [twoFiles, Ext4Inode.new, h2, h3, h4, Ne.symm h2, Ne.symm h3, Ne.symm h4]
  case refine_6 =>
    intro d name c h hk
    obtain ⟨_, ⟨_, rfl⟩ | ⟨_, rfl⟩⟩ := hnames h
    all_goals simp [twoFiles] at hk
  case refine_7 =>
    intro ino hk
    by_cases h2 : ino = 2
    case pos => rw [h2]; decide
    case neg =>
      simp only [twoFiles, h2, if_false] at hk
      split at hk <;> cases hk
  case refine_8 =>
    intro ino hi
    cases List.mem_singleton.mp hi
    refine ⟨rfl, fun parent name hm => ?_⟩
    rw [entries_twoFiles] at hm
    split at hm
    case isTrue => simp at hm
    case isFalse => cases hm

-- The target of the rename is gone when the new entry cannot be added.
theorem rename_loses_target : ∃ (fs : Ext4Namespace) (op : Ext4Op) (faults : Nat → Option SysErrNo) (err : SysErrNo),
    fs.WellFormed ∧ (op.run faults fs 0).result = .error err ∧ ¬fs.Intact (op.run faults fs 0).state := by
  let faults : Nat → Option SysErrNo := fun n => if n = 1 then some .ENOSPC else none
  refine ⟨twoFiles, .rename ["a"] ["b"] false, faults, .ENOSPC, wellFormed_twoFiles, rfl, fun h => ?_⟩
  have hb := (h.names 2 "b" 4).mpr ⟨by decide, by decide, by decide⟩
  exact absurd hb.left (by decide)

namespace Ext4Namespace.WellFormed

theorem change_exact_mkdir : twoFiles.Intact ((Ext4Op.mkdir ["d"]).run (fun _ => some .ENOSPC) twoFiles 0).state :=
  (@change_exact _ _ .ENOSPC wellFormed_twoFiles (.mkdir ["d"]) rfl).mpr fun _ _ => .inr (.inl ⟨nofun, nofun⟩)

end Ext4Namespace.WellFormed

end WllOs.Fs
