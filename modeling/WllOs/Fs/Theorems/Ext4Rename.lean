import WllOs.Fs.Theorems.Ext4Namespace

namespace WllOs.Fs

open Faults Program Ext4Inodes

variable {fs fs' : Ext4Namespace} {faults : Nat → Option SysErrNo} {err : SysErrNo} {n m : Nat}
variable {rename : Ext4Rename} {oldDir newDir old new : HostPath String} {noReplace : Bool}
variable {d c newIno : Nat} {name : String}

namespace Ext4Namespace

theorem renameTarget_ok (h : fs.renameTarget old new noReplace = .ok (some rename)) :
    ∃ oldDir newDir, old = oldDir ++ [rename.oldName] ∧ new = newDir ++ [rename.newName] ∧
      rename.Places fs oldDir newDir ∧ (noReplace → rename.newExisting = none) := by
  simp only [renameTarget] at h
  by_cases hne : old = new
  case pos => simp [hne] at h
  case neg =>
  rw [if_neg hne] at h
  have ⟨_, h⟩ := Fallible.guard_ok h
  cases hso : splitParentName old
  case error => simp [hso] at h
  case ok so =>
  cases hsn : splitParentName new
  case error => simp [hso, hsn] at h
  case ok sn =>
  obtain ⟨oldDir, oldName⟩ := so
  obtain ⟨newDir, newName⟩ := sn
  simp only [hso, hsn] at h
  cases hro : fs.resolveExisting oldDir
  case none => simp [hro] at h
  case some po =>
  cases hrn : fs.resolveExisting newDir
  case none => simp [hro, hrn] at h
  case some pn =>
  obtain ⟨oldParent, oldParentKind⟩ := po
  obtain ⟨newParent, newParentKind⟩ := pn
  simp only [hro, hrn] at h
  have ⟨hk, h⟩ := Fallible.guard_ok h
  rw [not_or, not_not, not_not] at hk
  cases ho : fs.resolveExisting old
  case none => simp [ho] at h
  case some fo =>
  obtain ⟨oldIno, oldKind⟩ := fo
  simp only [ho] at h
  have ⟨hdesc, h⟩ := Fallible.guard_ok h
  have ⟨hrep, h⟩ := Fallible.guard_ok h
  have ⟨hwo, hko⟩ := resolveExisting_eq_some.mp hro
  have ⟨hwn, hkn⟩ := resolveExisting_eq_some.mp hrn
  have ⟨hw, hkind⟩ := resolveExisting_eq_some.mp ho
  have heo := splitParentName_ok hso
  have hen := splitParentName_ok hsn
  have hbelow (hd : oldKind = .directory) : ¬oldDir ++ [oldName] <+: newDir ++ [newName] := by
    intro hp
    exact hdesc ⟨hd, pathIsDescendant_iff.mpr ⟨by rwa [heo, hen], hne⟩⟩
  cases hnew : fs.resolveExisting new
  case none =>
    simp only [hnew] at h
    cases h
    refine ⟨oldDir, newDir, heo, hen, ?_, fun _ => rfl⟩
    exact ⟨hwo, hko ▸ hk.left, hwn, hkn ▸ hk.right, heo ▸ hw, hkind, heo ▸ hen ▸ hne, hbelow, hen ▸ hnew.symm, nofun⟩
  case some found =>
    obtain ⟨newIno, newKind⟩ := found
    simp only [hnew] at h
    by_cases hi : newIno = oldIno
    case pos => simp [hi] at h
    case neg =>
    rw [if_neg hi] at h
    have hrep' : ¬noReplace := by simpa [hnew] using hrep
    by_cases hd : oldKind = .directory
    case pos =>
      rw [if_pos hd] at h
      have ⟨hnd, h⟩ := Fallible.guard_ok h
      have ⟨hempty, h⟩ := Fallible.guard_ok h
      cases h
      refine ⟨oldDir, newDir, heo, hen, ?_, fun hr => absurd hr hrep'⟩
      refine ⟨hwo, hko ▸ hk.left, hwn, hkn ▸ hk.right, heo ▸ hw, hkind, heo ▸ hen ▸ hne, hbelow, hen ▸ hnew.symm, ?_⟩
      rintro _ ⟨⟩
      exact ⟨hi, fun _ => ⟨not_not.mp hnd, not_not.mp hempty⟩, fun h => absurd hd h⟩
    case neg =>
      rw [if_neg hd] at h
      have ⟨hnd, h⟩ := Fallible.guard_ok h
      cases h
      refine ⟨oldDir, newDir, heo, hen, ?_, fun hr => absurd hr hrep'⟩
      refine ⟨hwo, hko ▸ hk.left, hwn, hkn ▸ hk.right, heo ▸ hw, hkind, heo ▸ hen ▸ hne, hbelow, hen ▸ hnew.symm, ?_⟩
      rintro _ ⟨⟩
      exact ⟨hi, fun h => absurd h hd, fun _ => hnd⟩

theorem renameTarget_of_places (h : rename.Places fs oldDir newDir) (hn : rename.newExisting = none) :
    fs.renameTarget (oldDir ++ [rename.oldName]) (newDir ++ [rename.newName]) noReplace = .ok (some rename) := by
  have ho := resolveExisting_eq_some.mpr ⟨h.oldParent, rfl⟩
  have hp := resolveExisting_eq_some.mpr ⟨h.newParent, rfl⟩
  have hi := resolveExisting_eq_some.mpr ⟨h.old, h.oldKind⟩
  have he := h.newExisting.symm.trans hn
  have hd : ¬(rename.oldKind = .directory ∧
      pathIsDescendant (oldDir ++ [rename.oldName]) (newDir ++ [rename.newName])) :=
    fun hd => h.below hd.left (pathIsDescendant_iff.mp hd.right).left
  simp only [renameTarget, if_neg h.ne, if_neg (List.append_ne_nil_of_right_ne_nil _ (List.cons_ne_nil _ _)),
    splitParentName_concat, ho, hp, hi, he, h.oldParentKind, h.newParentKind, ne_eq, not_true_eq_false, or_self,
    if_false, if_neg hd, Option.isSome_none, Bool.false_eq_true, and_false]
  rw [← hn]

end Ext4Namespace

namespace Ext4Rename

section Keeps

variable {P : Ext4Namespace → Prop}

-- What the part of a rename behind the new entry keeps, when it is kept without the old name.
theorem keeps_removeOld
    (hremove : ∀ s, P s → P (s.withInodes (·.removeEntry rename.oldParentIno rename.oldName)))
    (hdots : ∀ s, P s → P (s.withInodes (·.removeEntry rename.oldIno "..")))
    (hadd : ∀ s, P s → P (s.withInodes (·.addEntry rename.oldIno ".." rename.newParentIno)))
    (hlinks : ∀ s ino links, P s → P (s.withInodes (·.setLinksCount ino links)))
    (hseen : ∀ s, P s → P s.invalidateNamespace) : Keeps P rename.removeOld := by
  have hdir {parent : Nat} {name' : String} (h : ∀ s, P s → P (s.withInodes (·.removeEntry parent name'))) :
      Keeps P (dirRemoveEntry parent name') :=
    .get_bind fun _ => .bind .lift fun _ => .call h
  refine .bind (hdir hremove) fun _ => .bind (.when fun _ => ?_) fun _ => .modify hseen
  refine .bind (hdir hdots) fun _ => .bind (.call hadd) fun _ => ?_
  exact .bind (.modify fun s => hlinks s _ _) fun _ => .modify fun s => hlinks s _ _

-- The rename takes nothing away but the old name.
theorem keeps_names_removeOld (hne : ¬(d = rename.oldParentIno ∧ name = rename.oldName)) :
    Keeps (fun s => s.inodes.Names d name c) rename.removeOld := by
  refine keeps_removeOld (fun s hs => hs.removeEntry hne) (fun _ hs => ?_) (fun s hs => names_addEntry_dots.mpr hs)
    (fun _ _ _ hs => names_setLinksCount.mpr hs) fun _ hs => hs
  exact names_removeEntry_dots.mpr hs

theorem keeps_names_move (hne : ¬(d = rename.oldParentIno ∧ name = rename.oldName)) :
    Keeps (fun s => s.inodes.Names d name c) rename.move :=
  .bind (.call fun _ hs => ⟨mem_entries_addEntry.mpr (.inl hs.left), hs.right⟩) fun _ => keeps_names_removeOld hne

-- The new name leads nowhere else.
theorem keeps_newName_move (hn : rename.newName ≠ "." ∧ rename.newName ≠ "..") :
    Keeps (fun s => ∀ c, s.inodes.Names rename.newParentIno rename.newName c → c = rename.oldIno) rename.move := by
  refine .bind (.call fun s hs c hc => ?_) fun _ => keeps_removeOld (fun s hs c hc => hs c hc.of_removeEntry)
    (fun s hs c hc => hs c hc.of_removeEntry) (fun s hs c hc => hs c (names_addEntry_dots.mp hc))
    (fun _ _ _ hs c hc => hs c (names_setLinksCount.mp hc)) fun s hs => hs
  exact ((names_addEntry hn).mp hc).elim (hs c) fun h => h.right.right

end Keeps

section Move

variable (hm : (rename.oldName, rename.oldIno) ∈ (fs.inodes rename.oldParentIno).entries)

include hm

theorem move_error (h : rename.move faults fs n = ⟨.error err, fs', m⟩) :
    faults n ≠ none ∧ fs' = fs ∧ m = n + 1 ∨
      faults n = none ∧ (faults (n + 1) ≠ none ∧ fs' = rename.added fs ∨
        faults (n + 1) = none ∧ rename.oldParentIno ≠ rename.newParentIno ∧ rename.oldKind = .directory) := by
  rw [move] at h
  cases bind_error h
  case inl h =>
    have ⟨hf, hs, hm⟩ := dirAddEntry_error h
    exact .inl ⟨by simp [hf], hs, hm⟩
  case inr h =>
    obtain ⟨_, s, k, hadd, h⟩ := h
    obtain ⟨hf, rfl, rfl⟩ := dirAddEntry_ok hadd
    refine .inr ⟨hf, ?_⟩
    rw [removeOld] at h
    cases bind_error h
    case inl h =>
      have ⟨hs, hr⟩ := dirRemoveEntry_error h
      have hf' := hr ⟨rename.oldIno, mem_entries_addEntry.mpr (.inl hm)⟩
      exact .inl ⟨by simp [hf'], hs⟩
    case inr h =>
      obtain ⟨_, s, k, hremove, h⟩ := h
      refine .inr ⟨(dirRemoveEntry_ok hremove).left, ?_⟩
      cases bind_error h
      case inl h => exact (when_error h).left
      case inr h =>
        obtain ⟨_, _, _, _, h⟩ := h
        exact absurd h Total.modify.not_error

end Move

theorem move_ok (h : rename.move faults fs n = ⟨.ok (), fs', m⟩) :
    faults n = none ∧ faults (n + 1) = none ∧ fs' = rename.moved fs ∧
      (¬(rename.oldParentIno ≠ rename.newParentIno ∧ rename.oldKind = .directory) → m = n + 2) := by
  rw [move, removeOld] at h
  obtain ⟨_, s, k, hadd, h⟩ := bind_ok h
  obtain ⟨hf, rfl, rfl⟩ := dirAddEntry_ok hadd
  obtain ⟨_, s, k, hremove, h⟩ := bind_ok h
  obtain ⟨hf', rfl, rfl⟩ := dirRemoveEntry_ok hremove
  refine ⟨hf, hf', ?_⟩
  obtain ⟨_, s, k, hwhen, h⟩ := bind_ok h
  by_cases hc : rename.oldParentIno ≠ rename.newParentIno ∧ rename.oldKind = .directory
  case pos =>
    rw [when_pos hc] at hwhen
    obtain ⟨_, s', k', hdots, hwhen⟩ := bind_ok hwhen
    obtain ⟨_, rfl, rfl⟩ := dirRemoveEntry_ok hdots
    obtain ⟨_, s', k', hdots, hwhen⟩ := bind_ok hwhen
    obtain ⟨_, rfl, rfl⟩ := dirAddEntry_ok hdots
    cases hwhen
    cases h
    rw [moved, if_pos hc]
    exact ⟨rfl, fun hn => absurd hc hn⟩
  case neg =>
    rw [when_neg hc] at hwhen
    cases hwhen
    cases h
    rw [moved, if_neg hc]
    exact ⟨rfl, fun _ => rfl⟩

theorem move_names (hn : rename.newName ≠ "." ∧ rename.newName ≠ "..")
    (hne : ¬(rename.newParentIno = rename.oldParentIno ∧ rename.newName = rename.oldName))
    {result : Except SysErrNo Unit} (h : rename.move faults fs n = ⟨result, fs', m⟩) (hf : faults n = none) :
    fs'.inodes.Names rename.newParentIno rename.newName rename.oldIno := by
  have hadd : dirAddEntry rename.newParentIno rename.newName rename.oldIno faults fs n =
      ⟨.ok (), rename.added fs, n + 1⟩ := call_none hf
  rw [move, bind_of_ok hadd] at h
  exact @Keeps.of_eq _ _ _ _ _ _ _ _
    (fun s : Ext4Namespace => s.inodes.Names rename.newParentIno rename.newName rename.oldIno) _ _
    (keeps_names_removeOld hne) ((names_addEntry hn).mpr (.inr ⟨rfl, rfl, rfl⟩)) h

end Ext4Rename

namespace Ext4Namespace.Coherent

variable (h : fs.Coherent) (hp : rename.Places fs oldDir newDir)
include h hp

theorem names_old : fs.inodes.Names rename.oldParentIno rename.oldName rename.oldIno := by
  obtain ⟨d, hw, _, hn⟩ := h.walk_concat.mp hp.old
  cases hp.oldParent.symm.trans hw
  exact hn

theorem not_same_name : ¬(rename.newParentIno = rename.oldParentIno ∧ rename.newName = rename.oldName) := by
  rintro ⟨hi, hn⟩
  have := h.walk_unique hp.oldParent (hi ▸ hp.newParent) hp.oldParentKind
  exact hp.ne (by rw [this, hn])

theorem not_names_new (hn : rename.newExisting = none) : ¬fs.inodes.Names rename.newParentIno rename.newName c := by
  intro hc
  have hr := hp.newExisting.symm.trans hn
  rw [resolveExisting_eq_none] at hr
  cases hr.symm.trans (h.walk_concat.mpr ⟨_, hp.newParent, hp.newParentKind, hc⟩)

theorem names_new {kind : Ext4NodeKind} (hn : rename.newExisting = some (newIno, kind)) :
    fs.inodes.Names rename.newParentIno rename.newName newIno ∧ kind = (fs.inodes newIno).kind := by
  have hr := resolveExisting_eq_some.mp (hp.newExisting.symm.trans hn)
  obtain ⟨d, hw, _, hc⟩ := h.walk_concat.mp hr.left
  cases hp.newParent.symm.trans hw
  exact ⟨hc, hr.right⟩

omit h in
theorem resolveParent_new :
    fs.resolveParent (newDir ++ [rename.newName]) = .ok (rename.newParentIno, rename.newName) := by
  have hr := resolveExisting_eq_some.mpr ⟨hp.newParent, rfl⟩
  simp only [resolveParent, splitParentName_concat, hr, hp.newParentKind, ne_eq, not_true_eq_false, if_false]

omit h in
theorem removeTarget_new {kind : Ext4NodeKind} (hn : rename.newExisting = some (newIno, kind))
    (hd : rename.oldKind = .directory) :
    fs.removeTarget (newDir ++ [rename.newName]) = .ok (rename.newParentIno, rename.newName, newIno) := by
  have ⟨_, hk, _⟩ := hp.existing _ hn
  have ⟨hk, he⟩ := hk hd
  have hr := hp.newExisting.symm.trans hn
  simp only at hk he
  simp only [removeTarget, if_neg (List.append_ne_nil_of_right_ne_nil _ (List.cons_ne_nil _ _)),
    resolveParent_new hp, hr, hk, he, ne_eq, not_true_eq_false, if_false]

omit h in
theorem unlinkTarget_new {kind : Ext4NodeKind} (hn : rename.newExisting = some (newIno, kind))
    (hd : rename.oldKind ≠ .directory) :
    fs.unlinkTarget (newDir ++ [rename.newName]) = .ok (rename.newParentIno, rename.newName, newIno) := by
  have ⟨_, _, hk⟩ := hp.existing _ hn
  have hk := hk hd
  have hr := hp.newExisting.symm.trans hn
  simp only [unlinkTarget, resolveParent_new hp, hr]
  exact if_neg hk

end Ext4Namespace.Coherent

namespace Ext4Namespace

-- When the target has been removed, its name does not come back.
theorem WellFormed.not_intact_of_removed (h : fs.WellFormed) (hp : rename.Places fs oldDir newDir) {s : Ext4Namespace}
    {result : Except SysErrNo Unit} {kind : Ext4NodeKind} (hn : rename.newName ≠ "." ∧ rename.newName ≠ "..")
    (he : rename.newExisting = some (newIno, kind))
    (hs : ∀ c, ¬s.inodes.Names rename.newParentIno rename.newName c)
    (hm : rename.move faults s n = ⟨result, fs', m⟩) : ¬fs.Intact fs' := by
  intro hi
  have hk := Keeps.of_eq (Ext4Rename.keeps_newName_move hn) (fun c hc => absurd hc (hs c)) hm
  have hnew := (h.names_new hp he).left
  exact (hp.existing _ he).left (hk newIno ((hi.names _ _ _).mpr hnew))

theorem WellFormed.rename_iff (h : fs.WellFormed) (hdot : "." ∉ new ∧ ".." ∉ new)
    (ht : fs.renameTarget old new noReplace = .ok (some rename))
    (hr : renameExt4Locked old new noReplace faults fs 0 = ⟨.error err, fs', m⟩) :
    fs.Intact fs' ↔ fs.RenameSurvives faults rename := by
  obtain ⟨oldDir, newDir, rfl, rfl, hp, _⟩ := renameTarget_ok ht
  simp only [List.mem_append, List.mem_singleton, not_or] at hdot
  have hn : rename.newName ≠ "." ∧ rename.newName ≠ ".." := ⟨Ne.symm hdot.left.right, Ne.symm hdot.right.right⟩
  simp only [renameExt4Locked, get_bind, ht, lift_ok_bind] at hr
  rw [RenameSurvives]
  cases he : rename.newExisting
  case none =>
    rw [when_neg (by simp [he]), when_neg (by simp [he]), ok_bind, ok_bind] at hr
    obtain ⟨hf, rfl, _⟩ | ⟨hf, _⟩ := Ext4Rename.move_error (h.names_old hp).left hr
    case inl => exact iff_of_true h.intact_self ⟨fun _ hlt => absurd hlt (Nat.not_lt_zero _), hf⟩
    case inr =>
      refine iff_of_false (fun hi => ?_) fun hs => hs.right hf
      have hnew := Ext4Rename.move_names hn (h.not_same_name hp) hr hf
      exact h.not_names_new hp he ((hi.names _ _ _).mp hnew)
  case some found =>
    obtain ⟨newIno, newKind⟩ := found
    have hnew := h.names_new hp he
    by_cases hd : rename.oldKind = .directory
    case pos =>
      have htarget := Coherent.removeTarget_new hp he hd
      cases ((hp.existing _ he).right.left hd).left
      rw [when_pos ⟨by simp [he], hd⟩, when_neg (by simp [hd]), ok_bind] at hr
      cases bind_error hr
      case inl hr =>
        obtain ⟨hf, rfl⟩ | ⟨hf, hs⟩ := removeEmptyDir_error htarget (h.tree.nodup _) hnew.left.left hr
        case inl => exact iff_of_true h.intact_self ⟨fun _ hlt => absurd hlt (Nat.not_lt_zero _), hf⟩
        case inr =>
          exact iff_of_false (fun hi => hs newIno ((hi.names _ _ _).mpr hnew.left)) fun hs => hs.right hf
      case inr hr =>
        obtain ⟨_, s, k, hremove, hr⟩ := hr
        obtain ⟨hf, hs⟩ := removeEmptyDir_ok htarget (h.tree.nodup _) hremove
        exact iff_of_false (h.not_intact_of_removed hp hn he hs hr) fun hs => hs.right hf
    case neg =>
      have htarget := Coherent.unlinkTarget_new hp he hd
      have hk := (hp.existing _ he).right.right hd
      rw [when_neg (by simp [hd]), when_pos ⟨by simp [he], hd⟩, ok_bind] at hr
      have hiff : fs.Intact fs' ↔ fs.UnlinkSurvives faults newIno := by
        cases bind_error hr
        case inl hr => exact h.unlink_iff htarget hr
        case inr hr =>
          obtain ⟨_, s, k, hremove, hr⟩ := hr
          have hs := unlink_ok htarget (h.tree.nodup _) hremove
          refine iff_of_false (h.not_intact_of_removed hp hn he hs hr) fun hs => ?_
          exact not_survives_of_ok htarget hremove hs
      cases newKind
      case directory => exact absurd rfl hk
      all_goals exact hiff

end Ext4Namespace

end WllOs.Fs
