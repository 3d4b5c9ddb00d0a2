import WllOs.Fs.FdTable
import WllOs.Library.Fallible
import WllOs.Library.Lists

namespace WllOs.FileDescriptorTable

open Fallible

variable {φ : Type} {table table' : FileDescriptorTable φ} {index index' : Fin MAX_FD_NUM} {fd : φ} {flags : BitVec 64}

@[simp]
theorem mask_mask (flags : BitVec 64) : flags &&& FD_CLOEXEC &&& FD_CLOEXEC = flags &&& FD_CLOEXEC := by
  rw [BitVec.and_assoc, BitVec.and_self]

theorem sum_update (f : Fin MAX_FD_NUM → BitVec 64) (index : Fin MAX_FD_NUM) (flags : BitVec 64) :
    ∑ i, countCloexec (Function.update f index flags i) + countCloexec (f index) =
      ∑ i, countCloexec (f i) + countCloexec flags := by
  rw [← Finset.sum_erase_add _ _ (Finset.mem_univ index), ← Finset.sum_erase_add _ _ (Finset.mem_univ index)]
  have he : ∑ i ∈ Finset.univ.erase index, countCloexec (Function.update f index flags i) =
      ∑ i ∈ Finset.univ.erase index, countCloexec (f i) :=
    Finset.sum_congr rfl fun i hi => by rw [Function.update_of_ne (Finset.ne_of_mem_erase hi)]
  rw [he, Function.update_self]
  omega

theorem count_le_sum (f : Fin MAX_FD_NUM → BitVec 64) (index : Fin MAX_FD_NUM) :
    countCloexec (f index) ≤ ∑ i, countCloexec (f i) :=
  Finset.single_le_sum (fun i _ => Nat.zero_le (countCloexec (f i))) (Finset.mem_univ index)

theorem new_counted (stdin stdout stderr : φ) : (new stdin stdout stderr).Counted where
  count := by simp [new, countCloexec]
  isOpen _ _ := rfl
  flags _ := by simp [new]

-- What operations do to a table: they set and clear slots, and change the flags of open ones.
inductive Edited (table : FileDescriptorTable φ) : FileDescriptorTable φ → Prop
  | refl : Edited table table
  | setSlot {table' : FileDescriptorTable φ} (index : Fin MAX_FD_NUM) (fd : φ) (flags : BitVec 64) :
      Edited table table' → Edited table (table'.setSlot index fd flags)
  | clearSlot {table' : FileDescriptorTable φ} (index : Fin MAX_FD_NUM) :
      Edited table table' → Edited table (table'.clearSlot index).snd
  | setFdFlags {table' table'' : FileDescriptorTable φ} {fd : Nat} {flags : BitVec 64} :
      Edited table table' → table'.setFdFlags fd flags = .ok table'' → Edited table table''
  | closeAll : Edited table closeAll

theorem edited_remove {oldFd : Nat} (hr : table.remove oldFd = .ok (fd, table')) : table.Edited table' := by
  simp only [remove] at hr
  split at hr
  case h_1 => cases hr
  case h_2 index _ =>
    split at hr
    case h_1 he =>
      cases hr
      have : table.Edited (table.clearSlot index).snd := .clearSlot index .refl
      rwa [he] at this
    case h_2 => cases hr

theorem edited_allocSlotFrom {start limit newFd : Nat}
    (ha : table.allocSlotFrom start limit fd flags = some (newFd, table')) : table.Edited table' := by
  simp only [allocSlotFrom] at ha
  split at ha
  case isTrue => cases ha
  case isFalse =>
    generalize (if start = 0 then _ else _) = scanStart at ha
    split at ha
    case h_1 => cases ha; exact .setSlot _ _ _ .refl
    case h_2 =>
      split at ha
      case isTrue =>
        have ⟨_, _, he⟩ := Option.map_eq_some_iff.mp ha
        cases he
        exact .setSlot _ _ _ .refl
      case isFalse => cases ha

theorem edited_dupBelow {oldFd limit newFd : Nat} (hd : table.dupBelow oldFd limit = .ok (newFd, table')) :
    table.Edited table' := by
  simp only [dupBelow] at hd
  split at hd
  case h_1 => cases hd
  case h_2 => exact edited_allocSlotFrom (elim_ok hd)

theorem edited_dup2Below {oldFd newFd limit dupFd : Nat}
    (hd : table.dup2Below oldFd newFd limit = .ok (dupFd, table')) : table.Edited table' := by
  simp only [dup2Below] at hd
  split at hd
  case h_1 | h_2 => cases hd
  case h_3 =>
    have ⟨_, hd⟩ := guard_ok hd
    split at hd <;> cases hd
    case isTrue => exact .refl
    case isFalse =>
      split
      case isTrue => exact .setSlot _ _ _ (.clearSlot _ .refl)
      case isFalse => exact .setSlot _ _ _ .refl

theorem edited_apply (table : FileDescriptorTable φ) (op : Op φ) : table.Edited (table.apply op) := by
  cases op
  case alloc start limit fd flags =>
    simp only [apply]
    cases ha : table.allocSlotFrom start limit fd flags
    case none => exact .refl
    case some => exact edited_allocSlotFrom ha
  case remove oldFd =>
    simp only [apply]
    cases ha : table.remove oldFd
    case error => exact .refl
    case ok => exact edited_remove ha
  case setFdFlags oldFd flags =>
    simp only [apply]
    cases ha : table.setFdFlags oldFd flags
    case error => exact .refl
    case ok => exact .setFdFlags .refl ha
  case dup oldFd limit =>
    simp only [apply]
    cases ha : table.dupBelow oldFd limit
    case error => exact .refl
    case ok => exact edited_dupBelow ha
  case dup2 oldFd newFd limit =>
    simp only [apply]
    cases ha : table.dup2Below oldFd newFd limit
    case error => exact .refl
    case ok => exact edited_dup2Below ha
  case closeAll => exact .closeAll

theorem edited_allocAt {i : Nat} (ha : table.allocAt i fd = .ok table') : table.Edited table' := by
  simp only [allocAt] at ha
  cases hs : slot i <;> rw [hs] at ha <;> cases ha
  exact .setSlot _ _ _ .refl

theorem edited_dup3Below {oldFd newFd limit dupFd : Nat}
    (hd : table.dup3Below oldFd newFd flags limit = .ok (dupFd, table')) : table.Edited table' := by
  simp only [dup3Below] at hd
  have ⟨_, hd⟩ := guard_ok hd
  have ⟨⟨_, table₂⟩, h₂, hd⟩ := bind_ok hd
  have ⟨_, hf, hd⟩ := bind_ok hd
  cases hd
  exact (edited_dup2Below h₂).setFdFlags hf

-- The loop edits the table that it has got to.
theorem Edited.foldl_closeIfCloexec (indices : List (Fin MAX_FD_NUM)) (closed : List φ × FileDescriptorTable φ)
    (h : table.Edited closed.snd) : table.Edited (indices.foldl closeIfCloexec closed).snd := by
  induction indices generalizing closed
  case nil => exact h
  case cons index indices hi =>
    apply hi
    simp only [closeIfCloexec]
    split
    case isTrue => exact h.clearSlot index
    case isFalse => exact h

theorem edited_closeOnExec (table : FileDescriptorTable φ) : table.Edited table.closeOnExec.snd := by
  simp only [closeOnExec]
  split
  case isTrue => exact .refl
  case isFalse => exact .foldl_closeIfCloexec _ _ .refl

namespace Counted

-- A slot and the count change together.
theorem update (h : table.Counted) (index : Fin MAX_FD_NUM) (slot : Option φ) (hint : Nat)
    (hn : slot = none → flags = 0) (hf : flags &&& FD_CLOEXEC = flags) :
    Counted ⟨Function.update table.fds index slot, Function.update table.fdFlags index flags, hint,
      table.cloexecCount - countCloexec (table.fdFlags index) + countCloexec flags⟩ where
  count := by
    have hs := sum_update table.fdFlags index flags
    have hl := count_le_sum table.fdFlags index
    dsimp only
    rw [h.count]
    omega
  isOpen i hi := by
    dsimp only at hi ⊢
    by_cases he : i = index
    case pos => subst he; rw [Function.update_self] at hi ⊢; exact hn hi
    case neg => rw [Function.update_of_ne he] at hi ⊢; exact h.isOpen i hi
  flags i := by
    dsimp only
    by_cases he : i = index
    case pos => subst he; rw [Function.update_self]; exact hf
    case neg => rw [Function.update_of_ne he]; exact h.flags i

theorem setSlot (h : table.Counted) : (table.setSlot index fd flags).Counted :=
  h.update index (some fd) _ nofun (mask_mask flags)

theorem clearSlot (h : table.Counted) : (table.clearSlot index).snd.Counted :=
  h.update index none _ (fun _ => rfl) BitVec.zero_and

theorem closeAll : (closeAll : FileDescriptorTable φ).Counted where
  count := by simp [FileDescriptorTable.closeAll, countCloexec]
  isOpen _ _ := rfl
  flags _ := by simp [FileDescriptorTable.closeAll]

theorem setFdFlags (h : table.Counted) {oldFd : Nat} (hr : table.setFdFlags oldFd flags = .ok table') :
    table'.Counted := by
  simp only [FileDescriptorTable.setFdFlags] at hr
  split at hr
  case h_1 => cases hr
  case h_2 index _ =>
    have ⟨ho, hr⟩ := guard_ok hr
    cases hr
    have := h.update index (table.fds index) table.nextFdHint (fun hn => absurd (by simp [hn]) ho)
      (mask_mask flags)
    rwa [Function.update_eq_self] at this

theorem edited (h : table.Counted) (he : table.Edited table') : table'.Counted := by
  induction he
  case refl => exact h
  case setSlot hi => exact hi.setSlot
  case clearSlot hi => exact hi.clearSlot
  case setFdFlags hf hi => exact hi.setFdFlags hf
  case closeAll => exact closeAll

-- Every operation keeps the count.
theorem apply (h : table.Counted) (op : Op φ) : (table.apply op).Counted :=
  h.edited (edited_apply table op)

theorem closeOnExec_counted (h : table.Counted) : table.closeOnExec.snd.Counted :=
  h.edited (edited_closeOnExec table)

end Counted

theorem isCloexec_clearSlot : (table.clearSlot index).snd.isCloexec index' =
    (decide (index' ≠ index) && table.isCloexec index') := by
  by_cases h : index' = index <;> simp [isCloexec, clearSlot, h]

theorem fds_clearSlot : (table.clearSlot index).snd.fds index' = if index' = index then none else table.fds index' := by
  by_cases h : index' = index <;> simp [clearSlot, h]

theorem fdFlags_clearSlot :
    (table.clearSlot index).snd.fdFlags index' = if index' = index then 0 else table.fdFlags index' := by
  by_cases h : index' = index <;> simp [clearSlot, h]

-- The loop clears the slots with the flag that it has passed.
theorem foldl_closeIfCloexec (indices : List (Fin MAX_FD_NUM)) (closed : List φ) :
    (indices.foldl closeIfCloexec (closed, table)).snd.fds index =
        (if index ∈ indices ∧ table.isCloexec index then none else table.fds index) ∧
      (indices.foldl closeIfCloexec (closed, table)).snd.fdFlags index =
        (if index ∈ indices ∧ table.isCloexec index then 0 else table.fdFlags index) := by
  induction indices generalizing closed table
  case nil => simp
  case cons i indices hi =>
    rw [List.foldl_cons]
    by_cases hc : table.isCloexec i
    case pos =>
      have he : closeIfCloexec (closed, table) i = (closed ++ (table.fds i).toList, (table.clearSlot i).snd) := by
        simp [closeIfCloexec, hc, clearSlot]
      rw [he, (hi _).left, (hi _).right, isCloexec_clearSlot, fds_clearSlot, fdFlags_clearSlot]
      by_cases hn : index = i
      case pos => subst hn; simp [hc]
      case neg => simp [hn]
    case neg =>
      have he : closeIfCloexec (closed, table) i = (closed, table) := by simp [closeIfCloexec, hc]
      rw [he, (hi _).left, (hi _).right]
      by_cases hn : index = i
      case pos => subst hn; simp [hc]
      case neg => simp [hn]

-- Without open slots that have the flag, the count is zero.
theorem Counted.count_pos (h : table.Counted) (hc : table.isCloexec index) : table.cloexecCount ≠ 0 := by
  have hl := count_le_sum table.fdFlags index
  rw [← h.count] at hl
  simp only [isCloexec, Bool.and_eq_true, decide_eq_true_eq] at hc
  simp only [countCloexec, if_pos hc.right] at hl
  omega

-- Where the count is right, `close_on_exec` closes the descriptors with the flag, and no others.
theorem Counted.closeOnExec (h : table.Counted) :
    table.closeOnExec.snd.fds index = (if table.isCloexec index then none else table.fds index) ∧
      table.closeOnExec.snd.fdFlags index = (if table.isCloexec index then 0 else table.fdFlags index) := by
  simp only [FileDescriptorTable.closeOnExec]
  split
  case isTrue hz =>
    have hn : table.isCloexec index = false := by
      by_contra hc
      exact h.count_pos (by simpa using hc) hz
    simp [hn]
  case isFalse => simpa using foldl_closeIfCloexec (List.finRange MAX_FD_NUM) []

theorem slot_val : slot index.val = some index := by
  simp [slot, index.isLt]

-- A table looks the same after `close_on_exec` exactly if no open descriptor has the flag.
theorem Counted.view_closeOnExec (h : table.Counted) :
    table.closeOnExec.snd.view = table.view ↔ ∀ index, table.isCloexec index = false := by
  constructor
  case mp =>
    intro he index
    by_contra hc
    rw [Bool.not_eq_false] at hc
    have hv := congrFun he index.val
    simp only [view, slot_val, Option.bind_some, h.closeOnExec.left, if_pos hc, Option.map_none] at hv
    simp only [isCloexec, Bool.and_eq_true] at hc
    exact absurd hv.symm (by simp [Option.isSome_iff_ne_none.mp hc.left])
  case mpr =>
    intro hc
    funext fd
    simp only [view]
    congr 1
    funext index
    simp [h.closeOnExec.left, h.closeOnExec.right, hc]

-- The slots below the hint are open.
def Hinted (table : FileDescriptorTable φ) : Prop :=
  ∀ index : Fin MAX_FD_NUM, index.val < table.nextFdHint → (table.fds index).isSome

namespace Hinted

theorem new (stdin stdout stderr : φ) : (new stdin stdout stderr).Hinted := by
  rintro ⟨index, _⟩ hi
  have hl : index < 3 := hi
  match index, hl with
  | 0, _ | 1, _ | 2, _ => rfl

theorem setSlot (h : table.Hinted) : (table.setSlot index fd flags).Hinted := by
  intro i hi
  simp only [FileDescriptorTable.setSlot] at hi ⊢
  by_cases he : i = index
  case pos => simp [he]
  case neg =>
    rw [Function.update_of_ne he]
    apply h
    have hv : i.val ≠ index.val := fun hv => he (Fin.ext hv)
    split at hi
    case isTrue hc => cases hc <;> omega
    case isFalse => exact hi

theorem clearSlot (h : table.Hinted) : (table.clearSlot index).snd.Hinted := by
  intro i hi
  simp only [FileDescriptorTable.clearSlot] at hi ⊢
  rw [Function.update_of_ne (by rintro rfl; omega)]
  exact h i (by omega)

theorem closeAll : (closeAll : FileDescriptorTable φ).Hinted :=
  fun _ hi => nomatch hi

theorem setFdFlags (h : table.Hinted) {oldFd : Nat} (hr : table.setFdFlags oldFd flags = .ok table') :
    table'.Hinted := by
  simp only [FileDescriptorTable.setFdFlags] at hr
  split at hr
  case h_1 => cases hr
  case h_2 =>
    have ⟨_, hr⟩ := guard_ok hr
    cases hr
    exact h

theorem edited (h : table.Hinted) (he : table.Edited table') : table'.Hinted := by
  induction he
  case refl => exact h
  case setSlot hi => exact hi.setSlot
  case clearSlot hi => exact hi.clearSlot
  case setFdFlags hf hi => exact hi.setFdFlags hf
  case closeAll => exact closeAll

end Hinted

-- The search goes through the slots in their order.
theorem find?_finRange {n : Nat} {p : Fin n → Bool} {i : Fin n} :
    (List.finRange n).find? p = some i ↔ p i ∧ ∀ j < i, ¬p j := by
  rw [List.find?_eq_some_iff_getElem]
  apply and_congr_right
  intro _
  constructor
  case mp =>
    rintro ⟨k, hk, he, hp⟩ j hj
    have hv : k = i.val := by simpa using congrArg Fin.val he
    have := hp j.val (by omega)
    simpa using this
  case mpr =>
    intro hp
    exists i.val, by simp
    refine ⟨by simp, fun j hj => ?_⟩
    have := hp ⟨j, by omega⟩ hj
    simpa using this

theorem firstFree_eq_some {start limit : Nat} : table.firstFree start limit = some index ↔
    (start ≤ index.val ∧ index.val < limit ∧ table.fds index = none) ∧
      ∀ i < index, ¬(start ≤ i.val ∧ i.val < limit ∧ table.fds i = none) := by
  simp only [firstFree, find?_finRange, Bool.and_eq_true, decide_eq_true_eq, Option.isNone_iff_eq_none, and_assoc]

theorem firstFree_eq_none {start limit : Nat} : table.firstFree start limit = none ↔
    ∀ i, ¬(start ≤ i.val ∧ i.val < limit ∧ table.fds i = none) := by
  simp [firstFree, List.find?_eq_none]

theorem free_iff {start limit : Nat} {i : Fin MAX_FD_NUM} :
    table.Free start limit i ↔ start ≤ i.val ∧ i.val < limit ∧ table.fds i = none := by
  simp [Free, slot_val]

-- Where the hint is right, the search starts at it without missing a free slot.
theorem Hinted.firstFree_hint (h : table.Hinted) (limit : Nat) :
    table.firstFree (min table.nextFdHint limit) limit = table.firstFree 0 limit := by
  simp only [firstFree]
  congr 1
  funext i
  have := h i
  cases hf : table.fds i
  case none =>
    have hl : table.nextFdHint ≤ i.val := by
      by_contra hl
      simp [hf] at this
      omega
    simp
    omega
  case some => simp

theorem Hinted.allocSlotFrom_eq (h : table.Hinted) (start limit : Nat) (fd : φ) (flags : BitVec 64) :
    table.allocSlotFrom start limit fd flags =
      (table.firstFree start (min limit MAX_FD_NUM)).map fun index => (index.val, table.setSlot index fd flags) := by
  simp only [allocSlotFrom]
  generalize min limit MAX_FD_NUM = limit
  split
  case isTrue hs =>
    have hn : table.firstFree start limit = none := firstFree_eq_none.mpr fun _ _ => by omega
    rw [hn, Option.map_none]
  case isFalse hs =>
    by_cases hz : start = 0
    case pos =>
      subst hz
      rw [if_pos rfl, h.firstFree_hint]
      cases hf : table.firstFree 0 limit
      case some => rfl
      case none =>
        have hn : table.firstFree 0 (min table.nextFdHint limit) = none :=
          firstFree_eq_none.mpr fun i hi => firstFree_eq_none.mp hf i ⟨hi.left, by omega, hi.right.right⟩
        simp [hn]
    case neg =>
      rw [if_neg hz]
      cases table.firstFree start limit <;> simp

theorem free_min {start limit fd : Nat} : table.Free start (min limit MAX_FD_NUM) fd ↔ table.Free start limit fd := by
  simp only [Free, slot]
  constructor
  case mp => exact fun ⟨hs, hl, hi⟩ => ⟨hs, by omega, hi⟩
  case mpr =>
    rintro ⟨hs, hl, index, hi, hf⟩
    split at hi
    case isTrue hm => exact ⟨hs, by omega, index, by rw [dif_pos hm]; exact hi, hf⟩
    case isFalse => cases hi

theorem Free.slot_eq {start limit n : Nat} (h : table.Free start limit n) : ∃ index : Fin MAX_FD_NUM, n = index.val := by
  have ⟨_, _, index, hs, _⟩ := h
  simp only [slot] at hs
  split at hs
  case isTrue hn => exact ⟨⟨n, hn⟩, rfl⟩
  case isFalse => cases hs

theorem firstFree_isLeast {start limit : Nat} (h : table.firstFree start (min limit MAX_FD_NUM) = some index) :
    IsLeast {fd | table.Free start limit fd} index.val := by
  have ⟨hf, hl⟩ := firstFree_eq_some.mp h
  constructor
  case left => exact free_min.mp (free_iff.mpr hf)
  case right =>
    intro n hn
    have ⟨i, hi⟩ := hn.slot_eq
    subst hi
    by_contra hc
    exact hl i (by omega) (free_iff.mp (free_min.mpr hn))

theorem view_setSlot : (table.setSlot index fd flags).view index.val = some (fd, flags &&& FD_CLOEXEC) := by
  simp [view, slot_val, setSlot]

-- The count is the number of descriptors with the flag.
theorem Counted.card (h : table.Counted) :
    table.cloexecCount = (Finset.univ.filter fun index => table.isCloexec index).card := by
  rw [h.count, Finset.card_filter]
  apply Finset.sum_congr rfl
  intro index _
  simp only [countCloexec, isCloexec]
  by_cases hf : table.fds index = none
  case pos => simp [hf, h.isOpen index hf]
  case neg => simp [Option.isSome_iff_ne_none.mpr hf]

theorem foldl_closeIfCloexec_fst (indices : List (Fin MAX_FD_NUM)) (hn : indices.Nodup) (closed : List φ) :
    (indices.foldl closeIfCloexec (closed, table)).fst =
      closed ++ indices.filterMap fun index => if table.isCloexec index then table.fds index else none := by
  induction indices generalizing closed table
  case nil => simp
  case cons i indices hi =>
    have ⟨hm, hn⟩ := List.nodup_cons.mp hn
    rw [List.foldl_cons]
    by_cases hc : table.isCloexec i
    case pos =>
      have he : closeIfCloexec (closed, table) i = (closed ++ (table.fds i).toList, (table.clearSlot i).snd) := by
        simp [closeIfCloexec, hc, clearSlot]
      have hx : ∀ index ∈ indices,
          (if (table.clearSlot i).snd.isCloexec index then (table.clearSlot i).snd.fds index else none) =
            if table.isCloexec index then table.fds index else none := by
        intro index hx
        have hne : index ≠ i := by rintro rfl; exact hm hx
        simp [isCloexec_clearSlot, fds_clearSlot, hne]
      rw [he, hi hn, List.filterMap_congr hx]
      cases hf : table.fds i <;> simp [hf, hc]
    case neg =>
      have he : closeIfCloexec (closed, table) i = (closed, table) := by simp [closeIfCloexec, hc]
      rw [he, hi hn]
      simp [hc]

theorem Counted.closeOnExec_fst (h : table.Counted) : table.closeOnExec.fst =
    (List.finRange MAX_FD_NUM).filterMap fun index => if table.isCloexec index then table.fds index else none := by
  simp only [FileDescriptorTable.closeOnExec]
  split
  case isTrue hz =>
    have hn : ∀ index, table.isCloexec index = false := by
      intro index
      by_contra hc
      exact h.count_pos (by simpa using hc) hz
    simp [hn]
  case isFalse => simpa using foldl_closeIfCloexec_fst (List.finRange MAX_FD_NUM) (List.nodup_finRange _) []

theorem Counted.exact (h : table.Counted) (hh : table.Hinted) : table.Exact where
  hint := hh
  count := h.card
  lowest start limit fd flags newFd table' ha := by
    rw [hh.allocSlotFrom_eq] at ha
    have ⟨index, hf, he⟩ := Option.map_eq_some_iff.mp ha
    cases he
    exact ⟨firstFree_isLeast hf, view_setSlot⟩
  full start limit fd flags := by
    rw [hh.allocSlotFrom_eq, Option.map_eq_none_iff, firstFree_eq_none]
    constructor
    case mp =>
      intro hn i hi
      have ⟨index, he⟩ := hi.slot_eq
      subst he
      exact hn index (free_iff.mp (free_min.mpr hi))
    case mpr => exact fun hn i hi => hn i.val (free_min.mp (free_iff.mpr hi))
  closed := h.closeOnExec_fst
  kept index := h.closeOnExec.left

theorem clone_counted (h : table.Counted) (cloneFd : φ → φ) : (table.clone cloneFd).Counted where
  count := h.count
  isOpen index hn := h.isOpen index (Option.map_eq_none_iff.mp hn)
  flags := h.flags

theorem clone_hinted (h : table.Hinted) (cloneFd : φ → φ) : (table.clone cloneFd).Hinted :=
  fun index hi => by simpa [clone] using h index hi

theorem Reachable.inv (h : Reachable table) : table.Counted ∧ table.Hinted := by
  induction h
  case new => exact ⟨new_counted .., Hinted.new _ _ _⟩
  case apply op _ hi => exact ⟨hi.left.apply op, hi.right.edited (edited_apply _ op)⟩
  case allocAt ha hi => exact ⟨hi.left.edited (edited_allocAt ha), hi.right.edited (edited_allocAt ha)⟩
  case dup3 hd hi => exact ⟨hi.left.edited (edited_dup3Below hd), hi.right.edited (edited_dup3Below hd)⟩
  case closeOnExec hi => exact ⟨hi.left.closeOnExec_counted, hi.right.edited (edited_closeOnExec _)⟩
  case clone cloneFd _ hi => exact ⟨clone_counted hi.left cloneFd, clone_hinted hi.right cloneFd⟩

-- The hint and the count of a descriptor table are exact after every sequence of operations.
theorem descriptorTable_exact (h : Reachable table) : table.Exact :=
  h.inv.left.exact h.inv.right

theorem descriptorTable_exact_dup3 :
    ∃ table, (new 0 1 2).dup3Below 1 5 O_CLOEXEC 1024 = .ok (5, table) ∧ table.Exact := by
  have ⟨table, ht⟩ : ∃ table, (new 0 1 2).dup3Below 1 5 O_CLOEXEC 1024 = .ok (5, table) := ⟨_, rfl⟩
  exact ⟨table, ht, descriptorTable_exact (.dup3 (.new 0 1 2) ht)⟩

end WllOs.FileDescriptorTable

namespace WllOs

namespace FileDescriptorTable

variable {φ : Type} {table : FileDescriptorTable φ}

-- What the operations do to the descriptors in a table.

end FileDescriptorTable

end WllOs
