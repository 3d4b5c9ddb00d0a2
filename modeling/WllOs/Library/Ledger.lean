import WllOs.Library.Lists

namespace Ledger

variable {M : Type} [AddCommMonoid M]

-- One of finitely many holders changes.
theorem sum_of_ne {ι : Type} [Fintype ι] {f g : ι → M} (i : ι) (h : ∀ j, j ≠ i → f j = g j) :
    (∑ j, f j) + g i = (∑ j, g j) + f i := by
  classical
  have hrest : ∑ j ∈ Finset.univ.erase i, f j = ∑ j ∈ Finset.univ.erase i, g j :=
    Finset.sum_congr rfl fun j hj => h j (Finset.ne_of_mem_erase hj)
  rw [← Finset.add_sum_erase _ f (Finset.mem_univ i), ← Finset.add_sum_erase _ g (Finset.mem_univ i), hrest,
    add_right_comm, add_comm (f i), add_right_comm]

end Ledger

universe u v

-- How often an item is at each place.
def Placement (π : Type u) := π → Nat

namespace Placement

variable {π : Type u} {count count' : Placement π} {p q r : π}

-- The item is at exactly one place, and there only once.
def Once (count : Placement π) : Prop :=
  ∃ p, count p = 1 ∧ ∀ q, q ≠ p → count q = 0

theorem Once.le_one (h : count.Once) (p : π) : count p ≤ 1 := by
  have ⟨r, hr, ho⟩ := h
  by_cases hp : p = r
  case pos => exact Nat.le_of_eq (hp ▸ hr)
  case neg => exact ho p hp ▸ Nat.zero_le 1

theorem Once.unique (h : count.Once) (hp : 0 < count p) (hq : 0 < count q) : p = q := by
  have ⟨r, _, ho⟩ := h
  have hpr : p = r := by_contra fun hn => Nat.ne_of_gt hp (ho p hn)
  have hqr : q = r := by_contra fun hn => Nat.ne_of_gt hq (ho q hn)
  exact hpr.trans hqr.symm

theorem Once.eq_zero (h : count.Once) (hp : 0 < count p) (hq : q ≠ p) : count q = 0 :=
  Nat.eq_zero_of_not_pos fun hpos => hq (h.unique hpos hp)

-- An item that is at one of two places may move between them.
theorem Once.move (p q : π) (h : count.Once) (hne : p ≠ q) (hs : count' p + count' q = count p + count q)
    (ho : ∀ r, r ≠ p → r ≠ q → count' r = count r) : count'.Once := by
  have ⟨r, hr, hz⟩ := h
  by_cases hpq : r = p ∨ r = q
  case pos =>
    have hsum : count' p + count' q = 1 := by
      cases hpq
      case inl hp => rw [hs, hz q (hp ▸ hne.symm), ← hp, hr]
      case inr hq => rw [hs, hz p (hq ▸ hne), ← hq, hr]
    have hother {s : π} (hsp : s ≠ p) (hsq : s ≠ q) : count' s = 0 :=
      (ho s hsp hsq).trans (hz s fun h => hpq.elim (hsp <| h.trans ·) (hsq <| h.trans ·))
    by_cases hp : count' p = 1
    case pos =>
      refine ⟨p, hp, fun s hsp => ?_⟩
      by_cases hsq : s = q
      case pos => exact hsq ▸ by omega
      case neg => exact hother hsp hsq
    case neg =>
      refine ⟨q, by omega, fun s hsq => ?_⟩
      by_cases hsp : s = p
      case pos => exact hsp ▸ by omega
      case neg => exact hother hsp hsq
  case neg =>
    have hp : r ≠ p := fun h => hpq (.inl h)
    have hq : r ≠ q := fun h => hpq (.inr h)
    have := hz p hp.symm
    have := hz q hq.symm
    refine ⟨r, (ho r hp hq).trans hr, fun s hsr => ?_⟩
    by_cases hsp : s = p
    case pos => exact hsp ▸ by omega
    case neg =>
      by_cases hsq : s = q
      case pos => exact hsq ▸ by omega
      case neg => exact (ho s hsp hsq).trans (hz s hsr)

-- The items that are managed are at one place each, and the others are nowhere.
structure Placed {ι : Type v} (managed : ι → Prop) (counts : ι → Placement π) : Prop where
  once    : ∀ i, managed i → (counts i).Once
  outside : ∀ i, ¬managed i → ∀ place, counts i place = 0

variable {ι : Type v} {managed : ι → Prop} {counts counts' : ι → Placement π} {i : ι}

-- A step that moves items between two places.
theorem Placed.move (h : Placed managed counts) (hne : p ≠ q)
    (hs : ∀ i, counts' i p + counts' i q = counts i p + counts i q)
    (ho : ∀ i r, r ≠ p → r ≠ q → counts' i r = counts i r) : Placed managed counts' where
  once i hm := (h.once i hm).move p q hne (hs i) (ho i)
  outside i hm r := by
    have hz := h.outside i hm
    have hmoved := hs i
    rw [hz p, hz q, Nat.add_eq_zero_iff] at hmoved
    by_cases hp : r = p
    case pos => exact hp ▸ hmoved.1
    case neg =>
      by_cases hq : r = q
      case pos => exact hq ▸ hmoved.2
      case neg => rw [ho i r hp hq, hz]

theorem Placed.managed_of_pos (h : Placed managed counts) (hp : 0 < counts i p) : managed i :=
  by_contra fun hn => Nat.ne_of_gt hp (h.outside i hn p)

theorem Placed.le_one (h : Placed managed counts) (i : ι) (hne : p ≠ q) : counts i p + counts i q ≤ 1 := by
  by_cases hm : managed i
  case pos =>
    have honce := h.once i hm
    rcases Nat.eq_zero_or_pos (counts i p) with hz | hpos
    case inl => rw [hz, Nat.zero_add]; exact honce.le_one q
    case inr => rw [honce.eq_zero hpos hne.symm]; exact honce.le_one p
  case neg => rw [h.outside i hm, h.outside i hm]; exact Nat.zero_le 1

theorem Placed.eq_zero (h : Placed managed counts) (hp : 0 < counts i p) (hne : q ≠ p) : counts i q = 0 :=
  (h.once i (h.managed_of_pos hp)).eq_zero hp hne

-- New items come to one place.
theorem Placed.grow {fresh : ι → Prop} [DecidablePred fresh] (h : Placed managed counts) (p : π)
    (hfresh : ∀ i, fresh i → ¬managed i) (hp : ∀ i, counts' i p = counts i p + if fresh i then 1 else 0)
    (ho : ∀ i q, q ≠ p → counts' i q = counts i q) : Placed (fun i => fresh i ∨ managed i) counts' where
  once i hm := by
    by_cases hf : fresh i
    case pos =>
      have hzero := h.outside i (hfresh i hf)
      exact ⟨p, by rw [hp, hzero, if_pos hf], fun q hq => (ho i q hq).trans (hzero q)⟩
    case neg =>
      have hsame : counts' i = counts i := by
        funext q
        by_cases hq : q = p
        case pos => rw [hq, hp, if_neg hf, Nat.add_zero]
        case neg => exact ho i q hq
      rw [hsame]
      exact h.once i (hm.resolve_left hf)
  outside i hm q := by
    have hnone := not_or.mp hm
    by_cases hq : q = p
    case pos => rw [hq, hp, if_neg hnone.1, h.outside i hnone.2]
    case neg => rw [ho i q hq, h.outside i hnone.2]

end Placement
