import WllOs.Library.Fallible
import WllOs.Task.Credentials

namespace WllOs

namespace Ids

-- The ids satisfy a property, and the one of the filesystem a weaker one.
structure All (p q : BitVec 32 → Prop) (ids : Ids) : Prop where
  weaker : ∀ id, p id → q id
  real : p ids.real
  effective : p ids.effective
  saved : p ids.saved
  fs : q ids.fs

variable {p q : BitVec 32 → Prop} {ids ids' : Ids} {id : BitVec 32}

theorem All.has (h : ids.All p q) (hi : ids.has id) : p id := by
  simp only [Ids.has, Bool.or_eq_true, decide_eq_true_eq] at hi
  obtain (rfl | rfl) | rfl := hi
  case inl.inl => exact h.real
  case inl.inr => exact h.effective
  case inr => exact h.saved

theorem All.hasOrFs (h : ids.All p q) (hi : ids.hasOrFs id) : q id := by
  simp only [Ids.hasOrFs, Bool.or_eq_true, decide_eq_true_eq] at hi
  obtain hi | rfl := hi
  case inl => exact h.weaker id (h.has hi)
  case inr => exact h.fs

theorem All.setEffective (h : ids.All p q) (hi : p id) : (ids.setEffective id).All p q :=
  ⟨h.weaker, h.real, hi, h.saved, h.weaker id hi⟩

-- What the calls of a task do that is not privileged: each id becomes one that is there already.

theorem All.set (h : ids.All p q) (hs : ids.set false id = .ok ids') : ids'.All p q := by
  simp only [Ids.set, Bool.false_eq_true, if_false] at hs
  split at hs
  case isTrue hi =>
    cases hs
    exact h.setEffective (h.has hi)
  case isFalse => cases hs

theorem All.store (h : ids.All p q) (newReal newEffective : Option (BitVec 32)) (hr : ∀ id, newReal = some id → p id)
    (he : ∀ id, newEffective = some id → p id) : (ids.store newReal newEffective).All p q := by
  cases newReal
  case none =>
    cases newEffective
    case none => exact h
    case some id => exact h.setEffective (he id rfl)
  case some real =>
    have hreal : Ids.All p q { ids with real } := ⟨h.weaker, hr real rfl, h.effective, h.saved, h.fs⟩
    cases newEffective
    case none => exact hreal
    case some id => exact hreal.setEffective (he id rfl)

theorem All.setRe (h : ids.All p q) {newReal newEffective : Option (BitVec 32)}
    (hs : ids.setRe false newReal newEffective = .ok ids') : ids'.All p q := by
  simp only [Ids.setRe, Bool.not_false, Bool.true_and] at hs
  split at hs
  case isTrue => cases hs
  case isFalse hr =>
    split at hs
    case isTrue => cases hs
    case isFalse he =>
      have hstored := h.store newReal newEffective (fun id hid => ?_) (fun id hid => ?_)
      case refine_1 =>
        subst hid
        simp only [Option.any_some, Bool.and_eq_true, decide_eq_true_eq, ne_eq, not_and, Classical.not_not] at hr
        by_cases hi : id = ids.real
        case pos => exact hi ▸ h.real
        case neg => exact hr hi ▸ h.effective
      case refine_2 =>
        subst hid
        simp only [Option.any_some, Bool.not_eq_true', Bool.not_eq_false] at he
        exact h.has he
      split at hs
      case isTrue =>
        cases hs
        exact ⟨h.weaker, hstored.real, hstored.effective, hstored.effective, hstored.fs⟩
      case isFalse =>
        cases hs
        exact hstored

theorem All.setRes (h : ids.All p q) {newReal newEffective newSaved : Option (BitVec 32)}
    (hs : ids.setRes false newReal newEffective newSaved = .ok ids') : ids'.All p q := by
  simp only [Ids.setRes, Bool.not_false, Bool.true_and] at hs
  split at hs
  case isTrue => cases hs
  case isFalse hn =>
    have hin (new : Option (BitVec 32)) (hm : new ∈ [newReal, newEffective, newSaved]) (id : BitVec 32)
        (hid : new = some id) : p id := by
      subst hid
      refine h.has ?_
      by_contra hno
      exact hn (List.any_eq_true.mpr ⟨id, List.reduceOption_mem_iff.mpr hm, by simpa using hno⟩)
    have hstored := h.store newReal newEffective (hin newReal (by simp)) (hin newEffective (by simp))
    cases newSaved
    case none =>
      cases hs
      exact hstored
    case some id =>
      cases hs
      exact ⟨h.weaker, hstored.real, hstored.effective, hin (some id) (by simp) id rfl, hstored.fs⟩

theorem All.setFs (h : ids.All p q) (newFs : Option (BitVec 32)) : (ids.setFs false newFs).All p q := by
  cases newFs
  case none => exact h
  case some id =>
    simp only [Ids.setFs, Bool.false_or]
    split
    case isTrue hi => exact ⟨h.weaker, h.real, h.effective, h.saved, h.hasOrFs hi⟩
    case isFalse => exact h

-- A call that changes the effective id makes the one of the filesystem the same.

theorem set_fs {privileged : Bool} (hs : ids.set privileged id = .ok ids') : ids'.fs = ids'.effective := by
  simp only [Ids.set] at hs
  split_ifs at hs
  all_goals
    cases hs
    rfl

theorem store_fs (newReal newEffective : Option (BitVec 32)) :
    (ids.store newReal newEffective).effective = ids.effective ∨
    (ids.store newReal newEffective).fs = (ids.store newReal newEffective).effective := by
  cases newEffective
  case none => exact .inl (by cases newReal <;> rfl)
  case some => exact .inr rfl

theorem setRe_fs {privileged : Bool} {newReal newEffective : Option (BitVec 32)}
    (hs : ids.setRe privileged newReal newEffective = .ok ids') :
    ids'.effective = ids.effective ∨ ids'.fs = ids'.effective := by
  simp only [Ids.setRe] at hs
  split_ifs at hs
  all_goals
    cases hs
    exact store_fs newReal newEffective

theorem setRes_fs {privileged : Bool} {newReal newEffective newSaved : Option (BitVec 32)}
    (hs : ids.setRes privileged newReal newEffective newSaved = .ok ids') :
    ids'.effective = ids.effective ∨ ids'.fs = ids'.effective := by
  simp only [Ids.setRes] at hs
  split_ifs at hs
  cases newSaved
  all_goals
    cases hs
    exact store_fs newReal newEffective

theorem setFs_effective (privileged : Bool) (newFs : Option (BitVec 32)) :
    (ids.setFs privileged newFs).effective = ids.effective := by
  simp only [Ids.setFs]
  split
  case h_1 => split_ifs <;> rfl
  case h_2 => rfl

end Ids

namespace Credentials

open Fallible

variable {creds creds' : Credentials}

-- What a call changes: the ids of one kind, or the groups if the task is privileged.
inductive Changes (creds creds' : Credentials) : Prop
  | uids (h : creds' = { creds with uids := creds'.uids })
      (hf : creds'.uids.effective = creds.uids.effective ∨ creds'.uids.fs = creds'.uids.effective)
      (ha : creds.isRootCapable = false → ∀ p q, creds.uids.All p q → creds'.uids.All p q)
  | gids (h : creds' = { creds with gids := creds'.gids })
      (ha : creds.isRootCapable = false → ∀ p q, creds.gids.All p q → creds'.gids.All p q)
  | groups (h : creds' = { creds with supplementaryGroups := creds'.supplementaryGroups })
      (hr : creds.isRootCapable = true)

theorem call_changes {call : CredentialCall} (h : creds.call call = .ok creds') : Changes creds creds' := by
  cases call
  case setuid uid =>
    have ⟨id, _, h⟩ := bind_ok h
    have ⟨ids, hs, h⟩ := bind_ok h
    cases h
    exact .uids rfl (.inr (Ids.set_fs hs)) fun hu _ _ ha => ha.set (hu ▸ hs)
  case setgid gid =>
    have ⟨id, _, h⟩ := bind_ok h
    have ⟨ids, hs, h⟩ := bind_ok h
    cases h
    exact .gids rfl fun hu _ _ ha => ha.set (hu ▸ hs)
  case setreuid ruid euid =>
    have ⟨newRuid, _, h⟩ := bind_ok h
    have ⟨newEuid, _, h⟩ := bind_ok h
    have ⟨ids, hs, h⟩ := bind_ok h
    cases h
    exact .uids rfl (Ids.setRe_fs hs) fun hu _ _ ha => ha.setRe (hu ▸ hs)
  case setregid rgid egid =>
    have ⟨newRgid, _, h⟩ := bind_ok h
    have ⟨newEgid, _, h⟩ := bind_ok h
    have ⟨ids, hs, h⟩ := bind_ok h
    cases h
    exact .gids rfl fun hu _ _ ha => ha.setRe (hu ▸ hs)
  case setresuid ruid euid suid =>
    have ⟨newRuid, _, h⟩ := bind_ok h
    have ⟨newEuid, _, h⟩ := bind_ok h
    have ⟨newSuid, _, h⟩ := bind_ok h
    have ⟨ids, hs, h⟩ := bind_ok h
    cases h
    exact .uids rfl (Ids.setRes_fs hs) fun hu _ _ ha => ha.setRes (hu ▸ hs)
  case setresgid rgid egid sgid =>
    have ⟨newRgid, _, h⟩ := bind_ok h
    have ⟨newEgid, _, h⟩ := bind_ok h
    have ⟨newSgid, _, h⟩ := bind_ok h
    have ⟨ids, hs, h⟩ := bind_ok h
    cases h
    exact .gids rfl fun hu _ _ ha => ha.setRes (hu ▸ hs)
  case setfsuid uid =>
    cases h
    exact .uids rfl (.inl (Ids.setFs_effective _ _)) fun hu _ _ ha => by
      simp only [sysSetfsuid, hu]
      exact ha.setFs _
  case setfsgid gid =>
    cases h
    exact .gids rfl fun hu _ _ ha => by
      simp only [sysSetfsgid, hu]
      exact ha.setFs _
  case setgroups size list read =>
    have ⟨size, _, h⟩ := bind_ok h
    split_ifs at h with hmax hr hlist
    all_goals
      have ⟨groups, _, h⟩ := bind_ok h
      cases h
    exact .groups rfl (by simpa using hr)

-- A call of a task that is not privileged.
theorem step_unprivileged (hu : creds.isRootCapable = false) (call : CredentialCall) :
    (∀ p q, creds.uids.All p q → (creds.step call).uids.All p q) ∧
    (∀ p q, creds.gids.All p q → (creds.step call).gids.All p q) ∧
    (creds.step call).supplementaryGroups = creds.supplementaryGroups := by
  simp only [step]
  split
  case h_2 => exact ⟨fun _ _ => id, fun _ _ => id, rfl⟩
  case h_1 creds' h =>
    cases call_changes h
    case uids he _ ha =>
      refine ⟨ha hu, ?_, ?_⟩ <;> rw [he]
      exact fun _ _ => id
    case gids he ha =>
      refine ⟨?_, ha hu, ?_⟩ <;> rw [he]
      exact fun _ _ => id
    case groups hr => simp [hu] at hr

theorem run_unprivileged {calls : List CredentialCall} (hu : creds.Unprivileged calls) :
    (∀ p q, creds.uids.All p q → (creds.run calls).uids.All p q) ∧
    (∀ p q, creds.gids.All p q → (creds.run calls).gids.All p q) ∧
    (creds.run calls).supplementaryGroups = creds.supplementaryGroups := by
  induction calls generalizing creds
  case nil => exact ⟨fun _ _ => id, fun _ _ => id, rfl⟩
  case cons call calls hi =>
    have ⟨hsu, hsg, hss⟩ := step_unprivileged hu.1 call
    have ⟨hru, hrg, hrs⟩ := hi hu.2
    exact ⟨fun p q h => hru p q (hsu p q h), fun p q h => hrg p q (hsg p q h), hrs.trans hss⟩

-- A task without a privileged user id is not privileged, and stays so.
theorem unprivileged_of_all (h : creds.uids.All (· ≠ 0) (· ≠ 0)) (calls : List CredentialCall) :
    creds.Unprivileged calls := by
  have hu {creds : Credentials} (h : creds.uids.All (· ≠ 0) (· ≠ 0)) : creds.isRootCapable = false := by
    simpa [isRootCapable] using h.effective
  induction calls generalizing creds
  case nil => trivial
  case cons call calls hi => exact ⟨hu h, hi ((step_unprivileged (hu h) call).1 _ _ h)⟩

-- The call that loses the privilege makes the id of the filesystem the effective one.
theorem step_fs (call : CredentialCall) (hr : creds.isRootCapable) (hl : ¬(creds.step call).isRootCapable) :
    (creds.step call).uids.fs = (creds.step call).uids.effective := by
  have hne : (creds.step call).uids.effective ≠ creds.uids.effective := by
    intro he
    simp only [isRootCapable, he] at hl
    exact hl hr
  revert hne
  simp only [step]
  split
  case h_2 => exact fun hne => absurd rfl hne
  case h_1 creds' h =>
    cases call_changes h
    case uids hf _ => exact fun hne => hf.resolve_left hne
    case gids he _ => exact fun hne => absurd (by rw [he]) hne
    case groups he _ => exact fun hne => absurd (by rw [he]) hne

-- The ids of a task that has lost its privilege are confined to those that it had then, and those of a task without
-- a privileged id to others.
theorem confined :
    (∀ (creds : Credentials) (lost : CredentialCall) (calls : List CredentialCall), creds.isRootCapable →
      (creds.step lost).isRootCapable = false → (creds.step lost).Unprivileged calls →
      Ids.All ((creds.step lost).uids.has ·) ((creds.step lost).uids.has ·) ((creds.step lost).run calls).uids ∧
      Ids.All ((creds.step lost).gids.has ·) ((creds.step lost).gids.hasOrFs ·) ((creds.step lost).run calls).gids ∧
      ((creds.step lost).run calls).supplementaryGroups = (creds.step lost).supplementaryGroups) ∧
    ∀ (creds : Credentials) (calls : List CredentialCall), creds.uids.All (· ≠ 0) (· ≠ 0) →
      (creds.run calls).uids.All (· ≠ 0) (· ≠ 0) ∧
      (creds.gids.All (· ≠ 0) (· ≠ 0) → (creds.run calls).gids.All (· ≠ 0) (· ≠ 0)) := by
  refine ⟨fun creds lost calls hr hl hu => ?_, fun creds calls h => ?_⟩
  case refine_1 =>
    have ⟨huids, hgids, hgroups⟩ := run_unprivileged hu
    have hfs := step_fs lost hr (by simp [hl])
    refine ⟨huids _ _ ⟨fun _ => id, ?_, ?_, ?_, ?_⟩, hgids _ _ ⟨?_, ?_, ?_, ?_, ?_⟩, hgroups⟩
    all_goals simp +contextual [Ids.has, Ids.hasOrFs, hfs]
  case refine_2 =>
    have ⟨huids, hgids, _⟩ := run_unprivileged (unprivileged_of_all h calls)
    exact ⟨huids _ _ h, hgids _ _⟩

-- The id of a task for groups in the filesystem stays what it was when the task loses its privilege.
theorem fsgid_not_among_gids :
    ¬∀ (creds : Credentials) (lost : CredentialCall) (calls : List CredentialCall), creds.isRootCapable →
      (creds.step lost).isRootCapable = false → (creds.step lost).Unprivileged calls →
      ((creds.step lost).gids.has ((creds.step lost).run calls).gids.fs) := by
  intro h
  have hu : ((root.step (.setfsgid 5)).step (.setuid 1)).isRootCapable = false := by decide_cbv
  have := h (root.step (.setfsgid 5)) (.setuid 1) [] (by decide_cbv) hu trivial
  revert this
  decide_cbv

end Credentials

end WllOs
