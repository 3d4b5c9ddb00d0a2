import Mathlib

-- Binary search over a list. The searched window shrinks with every step, so its width is enough
-- fuel.
namespace BinarySearch

variable {α : Type*} {xs : List α} {cmp : α → Ordering} {p : α → Bool} {fuel left right i : Nat} {x : α}

-- Finds an index whose element compares as equal. An element that compares as `lt` lies to the right
-- of what is searched.
def find (xs : List α) (cmp : α → Ordering) : (fuel left right : Nat) → Option Nat
  | 0, _, _ => none
  | fuel + 1, left, right =>
    if left < right then
      let mid := left + (right - left) / 2
      match xs[mid]?.map cmp with
      | some .lt => find xs cmp fuel left mid
      | some .gt => find xs cmp fuel (mid + 1) right
      | some .eq => some mid
      | none     => none
    else
      none

-- Finds the first index whose element does not satisfy the predicate.
def partitionPoint (xs : List α) (p : α → Bool) : (fuel left right : Nat) → Nat
  | 0, left, _ => left
  | fuel + 1, left, right =>
    if left < right then
      let mid := left + (right - left) / 2
      if xs[mid]?.any p then
        partitionPoint xs p fuel (mid + 1) right
      else
        partitionPoint xs p fuel left mid
    else
      left

theorem find_sound (h : find xs cmp fuel left right = some i) : ∃ x, xs[i]? = some x ∧ cmp x = .eq := by
  induction fuel generalizing left right
  case zero => simp [find] at h
  case succ fuel hi =>
    simp only [find] at h
    split at h
    case isFalse => cases h
    case isTrue =>
      split at h
      case h_1 => exact hi h
      case h_2 => exact hi h
      case h_3 he =>
        cases h
        exact Option.map_eq_some_iff.mp he
      case h_4 => cases h

theorem find_congr {cmp' : α → Ordering} (h : ∀ x ∈ xs, cmp x = cmp' x) :
    find xs cmp fuel left right = find xs cmp' fuel left right := by
  induction fuel generalizing left right
  case zero => rfl
  case succ fuel hi =>
    have hm : ∀ i : Nat, xs[i]?.map cmp = xs[i]?.map cmp' := fun i => by
      cases hx : xs[i]?
      case none => rfl
      case some x => simp [h x (List.mem_of_getElem? hx)]
    simp only [find, hm, hi]

theorem find_complete (hs : xs.Pairwise fun x y => (cmp x = .lt → cmp y = .lt) ∧ (cmp y = .gt → cmp x = .gt))
    (hr : right ≤ xs.length) (hf : right - left ≤ fuel) (hl : left ≤ i) (hi : i < right)
    (hx : xs[i]? = some x) (he : cmp x = .eq) : (find xs cmp fuel left right).isSome := by
  induction fuel generalizing left right
  case zero => omega
  case succ fuel hind =>
    have hmid : left + (right - left) / 2 < xs.length := by omega
    have ⟨_, hx'⟩ := List.getElem?_eq_some_iff.mp hx
    simp only [find, show left < right by omega, ite_true, List.getElem?_eq_getElem hmid,
      Option.map_some]
    split
    case h_1 hc =>
      refine hind (by omega) (by omega) hl ?_
      by_contra hge
      have hc := Option.some.inj hc
      rcases Nat.lt_or_eq_of_le (Nat.le_of_not_lt hge) with hlt | heq
      case inl =>
        have := (List.pairwise_iff_getElem.mp hs _ _ hmid (by omega) hlt).1 hc
        rw [hx', he] at this
        cases this
      case inr =>
        simp only [heq, hx', he] at hc
        cases hc
    case h_2 hc =>
      refine hind hr (by omega) ?_ hi
      by_contra hge
      have hc := Option.some.inj hc
      rcases Nat.lt_or_eq_of_le (Nat.le_of_lt_succ (Nat.lt_of_not_le hge)) with hlt | heq
      case inl =>
        have := (List.pairwise_iff_getElem.mp hs _ _ (by omega) hmid hlt).2 hc
        rw [hx', he] at this
        cases this
      case inr =>
        simp only [← heq, hx', he] at hc
        cases hc
    case h_3 => rfl
    case h_4 hc => cases hc

-- The elements that satisfy the predicate come first, so the partition point separates them from the
-- others.
theorem partitionPoint_spec (hs : xs.Pairwise fun x y => p y → p x) (hr : right ≤ xs.length)
    (hw : left ≤ right) (hf : right - left ≤ fuel) (hlo : ∀ i x, i < left → xs[i]? = some x → p x)
    (hup : ∀ i x, right ≤ i → xs[i]? = some x → ¬p x) (i : Nat) (x : α) (hx : xs[i]? = some x) :
    p x ↔ i < partitionPoint xs p fuel left right := by
  induction fuel generalizing left right
  case zero =>
    simp only [partitionPoint]
    refine ⟨fun hp => ?_, fun h => hlo i x h hx⟩
    by_contra hge
    exact hup i x (by omega) hx hp
  case succ fuel hind =>
    simp only [partitionPoint]
    split
    case isFalse =>
      refine ⟨fun hp => ?_, fun h => hlo i x h hx⟩
      by_contra hge
      exact hup i x (by omega) hx hp
    case isTrue hlt =>
      have hmid : left + (right - left) / 2 < xs.length := by omega
      have hpw := List.pairwise_iff_getElem.mp hs
      simp only [List.getElem?_eq_getElem hmid, Option.any_some]
      split
      case isTrue hp =>
        refine hind hr (by omega) (by omega) (fun j y hj hy => ?_) hup
        have ⟨hj', hy⟩ := List.getElem?_eq_some_iff.mp hy
        rcases Nat.lt_or_eq_of_le (Nat.le_of_lt_succ hj) with hlt | heq
        case inl => exact hy ▸ hpw _ _ hj' hmid hlt hp
        case inr => simpa only [← heq, hy] using hp
      case isFalse hp =>
        refine hind (by omega) (by omega) (by omega) hlo (fun j y hj hy hpy => hp ?_)
        have ⟨hj', hy⟩ := List.getElem?_eq_some_iff.mp hy
        rcases Nat.lt_or_eq_of_le hj with hlt | heq
        case inl => exact hpw _ _ hmid hj' hlt (hy ▸ hpy)
        case inr => simpa only [heq, hy] using hpy

end BinarySearch
