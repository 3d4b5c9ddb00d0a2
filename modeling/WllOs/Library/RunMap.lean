import Mathlib

-- Finite maps from `Nat`, stored as runs: each entry is the first index of a run together with the
-- values at that index and the ones following it.
namespace RunMap

abbrev Runs (α : Type*) := List (Nat × List α)

variable {α : Type*} {runs left right : Runs α} {r s : Nat × List α} {vs ws : List α} {k n : Nat}
variable {a b : α}

-- The operations of an ordered map (Rust's `BTreeMap`) with `Nat` keys on a list that is sorted by
-- key.

def insertKey (runs : Runs α) (k : Nat) (vs : List α) : Runs α :=
  runs.filter (·.1 < k) ++ (k, vs) :: runs.filter (k < ·.1)

def eraseKey (runs : Runs α) (k : Nat) : Runs α :=
  runs.filter (·.1 ≠ k)

def findKey (runs : Runs α) (k : Nat) : Option (List α) :=
  (runs.find? (·.1 = k)).map (·.2)

def lastLE (runs : Runs α) (k : Nat) : Option (Nat × List α) :=
  (runs.filter (·.1 ≤ k)).getLast?

def lastLT (runs : Runs α) (k : Nat) : Option (Nat × List α) :=
  (runs.filter (·.1 < k)).getLast?

-- The value that a single run holds at index `n`.
def at? (r : Nat × List α) (n : Nat) : Option α :=
  if r.1 ≤ n then r.2[n - r.1]? else none

-- The map that a list of runs stands for.
def den (runs : Runs α) (n : Nat) : Option α :=
  runs.findSome? (at? · n)

-- The values of a list of runs by ascending index.
def vals (runs : Runs α) : List α :=
  runs.flatMap (·.2)

-- The entries of a list of runs at the indices from `lo` to `up`, by ascending index.
def entries (runs : Runs α) (lo up : Nat) : List (Nat × α) :=
  (List.range' lo (up - lo)).filterMap fun n => (den runs n).map (n, ·)

-- Runs are in canonical form if they are non-empty, in order, disjoint and not adjacent.
structure Canonical (runs : Runs α) : Prop where
  nonempty : ∀ r ∈ runs, r.2 ≠ []
  gaps     : runs.Pairwise (fun r s => r.1 + r.2.length < s.1)

theorem at?_eq_some : at? r n = some a ↔ r.1 ≤ n ∧ r.2[n - r.1]? = some a := by
  simp [at?]

theorem at?_bounds (h : at? r n = some a) : r.1 ≤ n ∧ n < r.1 + r.2.length := by
  have ⟨hl, hr⟩ := at?_eq_some.mp h
  have ⟨hr, _⟩ := List.getElem?_eq_some_iff.mp hr
  omega

theorem at?_eq_none : at? r n = none ↔ n < r.1 ∨ r.1 + r.2.length ≤ n := by
  simp only [at?]
  split
  case isTrue h  => simp only [List.getElem?_eq_none_iff]; omega
  case isFalse h => simp only [true_iff]; omega

theorem at?_none_of_lt (h : n < r.1) : at? r n = none :=
  at?_eq_none.mpr (.inl h)

theorem at?_none_of_ge (h : r.1 + r.2.length ≤ n) : at? r n = none :=
  at?_eq_none.mpr (.inr h)

theorem at?_append : at? (k, vs ++ ws) n = (at? (k, vs) n).or (at? (k + vs.length, ws) n) := by
  simp only [at?, List.getElem?_append]
  by_cases h : k ≤ n
  case neg => simp [h, show ¬(k + vs.length ≤ n) by omega]
  case pos =>
    by_cases h' : n - k < vs.length
    case pos => simp [h, h', show ¬(k + vs.length ≤ n) by omega]
    case neg => simp [h, h', show k + vs.length ≤ n by omega, Nat.sub_add_eq]

@[simp]
theorem den_nil : den ([] : Runs α) n = none :=
  rfl

@[simp]
theorem den_cons : den (r :: runs) n = (at? r n).or (den runs n) := by
  simp only [den, List.findSome?_cons]
  cases at? r n <;> rfl

@[simp]
theorem den_append : den (left ++ right) n = (den left n).or (den right n) := by
  induction left <;> simp_all [Option.or_assoc]

theorem den_eq_none : den runs n = none ↔ ∀ r ∈ runs, at? r n = none := by
  simp [den]

theorem den_mem (h : den runs n = some a) : ∃ r ∈ runs, at? r n = some a :=
  List.exists_of_findSome?_eq_some h

theorem den_left_of_none (h : den (left ++ right) n = none) : den left n = none := by
  simp_all

@[simp]
theorem vals_nil : vals ([] : Runs α) = [] :=
  rfl

@[simp]
theorem vals_cons : vals (r :: runs) = r.2 ++ vals runs := by
  simp [vals]

@[simp]
theorem vals_append : vals (left ++ right) = vals left ++ vals right := by
  simp [vals]

theorem mem_vals : a ∈ vals runs ↔ ∃ n, ∃ r ∈ runs, at? r n = some a := by
  simp only [vals, List.mem_flatMap]
  constructor
  case mp =>
    rintro ⟨r, hr, ha⟩
    have ⟨i, hi⟩ := List.getElem?_of_mem ha
    exact ⟨r.1 + i, r, hr, by simp [at?, hi]⟩
  case mpr =>
    rintro ⟨n, r, hr, ha⟩
    exact ⟨r, hr, List.mem_of_getElem? (at?_eq_some.mp ha).2⟩

namespace Canonical

theorem nil : Canonical ([] : Runs α) where
  nonempty := by simp
  gaps     := .nil

theorem cons_iff :
    Canonical (r :: runs) ↔ r.2 ≠ [] ∧ (∀ s ∈ runs, r.1 + r.2.length < s.1) ∧ Canonical runs where
  mp h  := ⟨h.nonempty _ (by simp), (List.pairwise_cons.mp h.gaps).1,
            fun _ hs => h.nonempty _ (by simp [hs]), (List.pairwise_cons.mp h.gaps).2⟩
  mpr h := {
    nonempty := List.forall_mem_cons.mpr ⟨h.1, h.2.2.nonempty⟩
    gaps     := List.pairwise_cons.mpr ⟨h.2.1, h.2.2.gaps⟩
  }

theorem append_iff :
    Canonical (left ++ right) ↔
    Canonical left ∧ Canonical right ∧ ∀ l ∈ left, ∀ r ∈ right, l.1 + l.2.length < r.1 where
  mp h :=
    have ⟨hl, hr, hg⟩ := List.pairwise_append.mp h.gaps
    ⟨⟨fun _ hm => h.nonempty _ (by simp [hm]), hl⟩, ⟨fun _ hm => h.nonempty _ (by simp [hm]), hr⟩, hg⟩
  mpr h := {
    nonempty := fun _ hm => (List.mem_append.mp hm).elim (h.1.nonempty _) (h.2.1.nonempty _)
    gaps     := List.pairwise_append.mpr ⟨h.1.gaps, h.2.1.gaps, h.2.2⟩
  }

theorem filter (h : Canonical runs) (p : Nat × List α → Bool) : Canonical (runs.filter p) where
  nonempty _ hm := h.nonempty _ (List.mem_of_mem_filter hm)
  gaps          := h.gaps.filter p

theorem length_pos (h : Canonical runs) (hm : r ∈ runs) : 0 < r.2.length :=
  List.length_pos_iff.mpr (h.nonempty r hm)

theorem den_eq_some (h : Canonical runs) : den runs n = some a ↔ ∃ r ∈ runs, at? r n = some a := by
  refine ⟨den_mem, ?_⟩
  rintro ⟨r, hm, ha⟩
  induction runs
  case nil => cases hm
  case cons s runs hi =>
    have ⟨_, hg, hc⟩ := cons_iff.mp h
    rw [den_cons]
    cases List.mem_cons.mp hm
    case inl he => simp [← he, ha]
    case inr hm =>
      have hb := at?_bounds ha
      have hn : at? s n = none := at?_none_of_ge (by have := hg _ hm; omega)
      simp [hn, hi hc hm]

theorem eq_of_start (h : Canonical runs) (hr : r ∈ runs) (hs : s ∈ runs) (he : r.1 = s.1) : r = s := by
  have hn : (runs.map (·.1)).Nodup := List.pairwise_map.mpr <| h.gaps.imp fun hg => by omega
  exact List.inj_on_of_nodup_map hn hr hs he

-- The run below an index is the only one that can hold it.
theorem lastLE_unique (h : Canonical runs) (hl : lastLE runs n = some s) :
    s ∈ runs ∧ s.1 ≤ n ∧ ∀ r ∈ runs, r.1 ≠ s.1 → at? r n = none := by
  have ⟨ys, hs⟩ := List.getLast?_eq_some_iff.mp hl
  have hm := List.mem_filter.mp (show s ∈ runs.filter (·.1 ≤ n) by simp [hs])
  have hsn : s.1 ≤ n := by simpa using hm.2
  refine ⟨hm.1, hsn, fun r hr hne => ?_⟩
  by_cases hrn : r.1 ≤ n
  case neg => exact at?_none_of_lt (by omega)
  case pos =>
    have hrm : r ∈ ys ++ [s] := hs ▸ List.mem_filter.mpr ⟨hr, by simpa using hrn⟩
    cases List.mem_append.mp hrm
    case inr he => simp_all
    case inl hy =>
      have hg := (List.pairwise_append.mp (hs ▸ (h.filter _).gaps)).2.2 r hy s (by simp)
      exact at?_none_of_ge (by omega)

theorem lastLE_bind (h : Canonical runs) : (lastLE runs n).bind (at? · n) = den runs n := by
  cases hl : lastLE runs n
  case none =>
    refine (den_eq_none.mpr fun r hm => at?_none_of_lt ?_).symm
    have := List.filter_eq_nil_iff.mp (List.getLast?_eq_none_iff.mp hl) r hm
    simpa using this
  case some s =>
    have ⟨hm, _, hu⟩ := h.lastLE_unique hl
    rw [Option.bind_some]
    cases ha : at? s n
    case some a => exact ((h.den_eq_some).mpr ⟨s, hm, ha⟩).symm
    case none =>
      refine (den_eq_none.mpr fun r hr => ?_).symm
      by_cases he : r.1 = s.1
      case neg => exact hu r hr he
      case pos => exact h.eq_of_start hr hm he ▸ ha

theorem den_cons_lt (h : Canonical (r :: runs)) (hn : n ≤ r.1 + r.2.length) : den runs n = none := by
  have ⟨_, hg, _⟩ := cons_iff.mp h
  exact den_eq_none.mpr fun s hs => at?_none_of_lt (by have := hg s hs; omega)

theorem den_cons_at (h : Canonical (r :: runs)) (hn : n ≤ r.2.length) :
    den (r :: runs) (r.1 + n) = r.2[n]? := by
  simp [h.den_cons_lt (Nat.add_le_add_left hn _), at?]

theorem den_cons_start (h : Canonical (r :: runs)) : ∃ a, den (r :: runs) r.1 = some a := by
  have hp := h.length_pos (r := r) (by simp)
  exact ⟨r.2[0], by simp [at?, hp]⟩

-- A run that starts where another one does cannot be longer, since the index after it is a gap.
theorem length_le (hr : Canonical (r :: left)) (hs : Canonical (s :: right)) (he : r.1 = s.1)
    (h : ∀ n, den (r :: left) n = den (s :: right) n) : s.2.length ≤ r.2.length := by
  by_contra hl
  have hn := hr.den_cons_at (le_refl r.2.length)
  have hs := hs.den_cons_at (n := r.2.length) (by omega)
  rw [h, he, hs] at hn
  simp at hn
  omega

theorem start_le (h : Canonical (r :: runs)) (hd : den (r :: runs) n = some a) : r.1 ≤ n := by
  have ⟨_, hg, _⟩ := cons_iff.mp h
  have ⟨s, hs, ha⟩ := den_mem hd
  have := at?_bounds ha
  cases List.mem_cons.mp hs
  case inl he => exact he ▸ this.1
  case inr hm => have := hg s hm; omega

-- Canonical runs are determined by the map that they stand for.
theorem ext {xs ys : Runs α} (hx : Canonical xs) (hy : Canonical ys) (h : ∀ n, den xs n = den ys n) :
    xs = ys := by
  induction xs generalizing ys
  case nil =>
    cases ys
    case nil => rfl
    case cons => have ⟨_, hd⟩ := hy.den_cons_start; simp [← h] at hd
  case cons x xs hi =>
    cases ys
    case nil => have ⟨_, hd⟩ := hx.den_cons_start; simp [h] at hd
    case cons y ys =>
      have ⟨_, hd⟩ := hx.den_cons_start
      have ⟨_, hd'⟩ := hy.den_cons_start
      have hs : x.1 = y.1 := Nat.le_antisymm (hx.start_le (h _ ▸ hd')) (hy.start_le (h _ ▸ hd))
      have hl : x.2.length = y.2.length :=
        Nat.le_antisymm (hy.length_le hx hs.symm fun n => (h n).symm) (hx.length_le hy hs h)
      have hv : x.2 = y.2 := by
        refine List.ext_getElem hl fun i hxi hyi => ?_
        have hd := h (x.1 + i)
        rw [hx.den_cons_at hxi.le, hs, hy.den_cons_at hyi.le] at hd
        simpa [hxi, hyi] using hd
      have hxy : x = y := Prod.ext hs hv
      subst hxy
      congr 1
      refine hi (cons_iff.mp hx).2.2 (cons_iff.mp hy).2.2 fun n => ?_
      by_cases hn : n ≤ x.1 + x.2.length
      case pos => rw [hx.den_cons_lt hn, hy.den_cons_lt hn]
      case neg =>
        have ha : at? x n = none := at?_none_of_ge (by omega)
        simpa [ha] using h n

-- The runs on both sides of a range of indices that no run touches.
theorem sides (h : Canonical runs) (hl : 0 < n) (hf : ∀ i, k ≤ i → i < k + n → den runs i = none) :
    runs = runs.filter (·.1 < k) ++ runs.filter (k < ·.1) ∧
    (∀ l ∈ runs.filter (·.1 < k), l.1 + l.2.length ≤ k) ∧
    (∀ r ∈ runs.filter (k < ·.1), k + n ≤ r.1) := by
  induction runs
  case nil => simp
  case cons r runs hi =>
    have ⟨hn, hg, hc⟩ := cons_iff.mp h
    have hlen := List.length_pos_iff.mpr hn
    have hr : ∀ i, k ≤ i → i < k + n → at? r i = none := fun i h₁ h₂ =>
      (Option.or_eq_none_iff.mp (den_cons ▸ hf i h₁ h₂)).1
    have ⟨hi₁, hi₂, hi₃⟩ := hi hc fun i h₁ h₂ =>
      (Option.or_eq_none_iff.mp (den_cons ▸ hf i h₁ h₂)).2
    have hk := at?_eq_none.mp (hr k (le_refl k) (by omega))
    by_cases hrk : r.1 < k
    case pos =>
      rw [List.filter_cons_of_pos (by simpa), List.filter_cons_of_neg (by simpa using hrk.le)]
      have hrl : r.1 + r.2.length ≤ k := by omega
      exact ⟨congrArg (r :: ·) hi₁, List.forall_mem_cons.mpr ⟨hrl, hi₂⟩, hi₃⟩
    case neg =>
      have hkr : k + n ≤ r.1 := by
        by_contra hlt
        cases at?_eq_none.mp (hr r.1 (by omega) (by omega)) <;> omega
      have hb : ∀ s ∈ runs, k + n ≤ s.1 := fun s hs => by have := hg s hs; omega
      have hnil : runs.filter (·.1 < k) = [] := by
        simp only [List.filter_eq_nil_iff, decide_eq_true_eq]
        exact fun s hs => by have := hb s hs; omega
      rw [hnil, List.nil_append] at hi₁
      rw [List.filter_cons_of_neg (by simpa using hrk), hnil,
        List.filter_cons_of_pos (by simpa using (by omega : k < r.1)), List.nil_append]
      exact ⟨congrArg (r :: ·) hi₁, by simp, List.forall_mem_cons.mpr ⟨hkr, hi₃⟩⟩

theorem insert_between (h : Canonical (left ++ right)) (hv : vs ≠ [])
    (hl : ∀ l ∈ left, l.1 + l.2.length < k) (hr : ∀ r ∈ right, k + vs.length < r.1) :
    Canonical (left ++ (k, vs) :: right) := by
  have ⟨hcl, hcr, hg⟩ := append_iff.mp h
  refine append_iff.mpr ⟨hcl, cons_iff.mpr ⟨hv, hr, hcr⟩, ?_⟩
  intro l hm r hm'
  cases List.mem_cons.mp hm'
  case inl he => exact he ▸ hl l hm
  case inr hm' => exact hg l hm r hm'

theorem vals_length_le_from (h : Canonical runs) (hb : ∀ r ∈ runs, r.1 + r.2.length ≤ n)
    (hk : ∀ r ∈ runs, k ≤ r.1) (hn : k ≤ n) : (vals runs).length + k ≤ n := by
  induction runs generalizing k
  case nil => simpa using hn
  case cons r runs hi =>
    have ⟨_, hg, hc⟩ := cons_iff.mp h
    have ⟨hbr, hbs⟩ := List.forall_mem_cons.mp hb
    have hr := hk r (by simp)
    have := hi hc hbs (fun s hs => (hg s hs).le) hbr
    simp only [vals_cons, List.length_append]
    omega

-- Disjoint runs hold at most as many values as there are indices below a bound of their ends.
theorem vals_length_le (h : Canonical runs) (hb : ∀ r ∈ runs, r.1 + r.2.length ≤ n) :
    (vals runs).length ≤ n :=
  h.vals_length_le_from (k := 0) hb (by simp) (by simp)

end Canonical

-- Where a range of indices is free, a run put there is visible and everything else is as before.
theorem den_insert_between (hf : ∀ i, k ≤ i → i < k + vs.length → den (left ++ right) i = none) :
    den (left ++ (k, vs) :: right) n = (at? (k, vs) n).or (den (left ++ right) n) := by
  simp only [den_append, den_cons]
  cases ha : at? (k, vs) n
  case none => simp
  case some =>
    have hb := at?_bounds ha
    simp [den_left_of_none (hf n hb.1 hb.2)]

theorem filter_lt_insert (hl : ∀ l ∈ left, l.1 < k) (hr : ∀ r ∈ right, k < r.1) :
    (left ++ right).filter (·.1 < k) = left := by
  have h₁ : left.filter (·.1 < k) = left := List.filter_eq_self.mpr (by simpa using hl)
  have h₂ : right.filter (·.1 < k) = [] := by
    simp only [List.filter_eq_nil_iff, decide_eq_true_eq]
    exact fun r hm => Nat.lt_asymm (hr r hm)
  simp only [List.filter_append, h₁, h₂, List.append_nil]

theorem filter_gt_insert (hl : ∀ l ∈ left, l.1 < k) (hr : ∀ r ∈ right, k < r.1) :
    (left ++ right).filter (k < ·.1) = right := by
  have h₁ : left.filter (k < ·.1) = [] := by
    simp only [List.filter_eq_nil_iff, decide_eq_true_eq]
    exact fun l hm => Nat.lt_asymm (hl l hm)
  have h₂ : right.filter (k < ·.1) = right := List.filter_eq_self.mpr (by simpa using hr)
  simp only [List.filter_append, h₁, h₂, List.nil_append]

theorem insertKey_between (hl : ∀ l ∈ left, l.1 < k) (hr : ∀ r ∈ right, k < r.1) :
    insertKey (left ++ right) k vs = left ++ (k, vs) :: right := by
  rw [insertKey, filter_lt_insert hl hr, filter_gt_insert hl hr]

theorem lastLT_between (hl : ∀ l ∈ left, l.1 < k) (hr : ∀ r ∈ right, k < r.1) :
    lastLT (left ++ right) k = left.getLast? := by
  rw [lastLT, filter_lt_insert hl hr]

theorem eraseKey_between (hl : ∀ l ∈ left, l.1 < k) (hr : ∀ r ∈ right, k < r.1) :
    eraseKey (left ++ (k, vs) :: right) k = left ++ right := by
  have h₁ : left.filter (·.1 ≠ k) = left :=
    List.filter_eq_self.mpr (by simpa using fun l v hm => (hl (l, v) hm).ne)
  have h₂ : right.filter (·.1 ≠ k) = right :=
    List.filter_eq_self.mpr (by simpa using fun r v hm => (hr (r, v) hm).ne')
  simp only [eraseKey, List.filter_append, h₁, List.filter_cons, h₂]
  simp

theorem findKey_between (hl : ∀ l ∈ left, l.1 < k) :
    findKey (left ++ (k, vs) :: right) k = some vs := by
  have hn : left.find? (·.1 = k) = none := by
    simpa using fun l v hm => (hl (l, v) hm).ne
  simp [findKey, hn]

theorem findKey_eq_none : findKey runs k = none ↔ ∀ r ∈ runs, r.1 ≠ k := by
  simp [findKey]

theorem range'_filterMap_none {β : Type*} {f : Nat → Option β} {lo : Nat}
    (h : ∀ i, lo ≤ i → i < lo + n → f i = none) : (List.range' lo n).filterMap f = [] := by
  rw [List.filterMap_eq_nil_iff]
  intro i hi
  rw [List.mem_range'_1] at hi
  exact h i hi.1 hi.2

theorem range'_split {lo mid up : Nat} (h₁ : lo ≤ mid) (h₂ : mid ≤ up) :
    List.range' lo (up - lo) = List.range' lo (mid - lo) ++ List.range' mid (up - mid) := by
  have h₃ : lo + (mid - lo) = mid := by omega
  have h₄ : up - lo = (mid - lo) + (up - mid) := by omega
  rw [h₄, ← List.range'_append_1, h₃]

theorem entries_cons {lo up : Nat} (h : Canonical (r :: runs)) :
    entries (r :: runs) lo up = entries [r] lo up ++ entries runs lo up := by
  have hruns : ∀ n, n < r.1 + r.2.length → den runs n = none := fun n hn => h.den_cons_lt hn.le
  have hr : ∀ n, r.1 + r.2.length ≤ n → at? r n = none := fun n hn => at?_none_of_ge hn
  generalize r.1 + r.2.length = stop at *
  rcases Nat.lt_or_ge up (max lo (min stop up)) with hup | hup
  case inl => simp [entries, show up - lo = 0 by omega]
  case inr =>
    simp only [entries, den_cons, den_nil, Option.or_none]
    rw [range'_split (Nat.le_max_left lo (min stop up)) hup]
    simp only [List.filterMap_append]
    generalize hm : max lo (min stop up) = mid at *
    have h₁ : (List.range' mid (up - mid)).filterMap (fun n => (at? r n).map (n, ·)) = [] :=
      range'_filterMap_none fun i h₁ h₂ => by simp [hr i (by omega)]
    have h₂ : (List.range' lo (mid - lo)).filterMap (fun n => (den runs n).map (n, ·)) = [] :=
      range'_filterMap_none fun i h₁ h₂ => by simp [hruns i (by omega)]
    rw [h₁, h₂, List.append_nil, List.nil_append]
    congr 1
    case e_a =>
      refine List.filterMap_congr fun i hi => ?_
      rw [List.mem_range'_1] at hi
      simp [hruns i (by omega)]
    case e_a =>
      refine List.filterMap_congr fun i hi => ?_
      rw [List.mem_range'_1] at hi
      simp [hr i (by omega)]

theorem zipIdx_take (hk : k + n ≤ vs.length) (start : Nat) :
    ((vs.zipIdx.drop k).take n).map (fun e => (start + e.2, e.1)) =
    (List.range' (start + k) n).filterMap fun i => (at? (start, vs) i).map (i, ·) := by
  induction n generalizing k
  case zero => simp
  case succ n hi =>
    have hlt : k < vs.zipIdx.length := by simp; omega
    have ha : at? (start, vs) (start + k) = some vs[k] := by simp [at?]
    rw [List.drop_eq_getElem_cons hlt, List.take_succ_cons, List.map_cons, List.range'_succ,
      List.filterMap_cons, ha, hi (k := k + 1) (by omega)]
    simp [Nat.add_assoc]

-- The enumeration of a single run between two indices.
theorem entries_singleton (lo up : Nat) :
    ((vs.zipIdx.drop (min (lo - k) vs.length)).take
      (min (up - k) vs.length - min (lo - k) vs.length)).map (fun e => (k + e.2, e.1)) =
    entries [(k, vs)] lo up := by
  simp only [entries, den_cons, den_nil, Option.or_none]
  by_cases h : max lo k < min up (k + vs.length)
  case neg =>
    have hz : min (up - k) vs.length - min (lo - k) vs.length = 0 := by omega
    rw [hz, List.take_zero, List.map_nil, range'_filterMap_none]
    exact fun i h₁ h₂ => by rw [at?_eq_none.mpr (by show i < k ∨ k + vs.length ≤ i; omega)]; rfl
  case pos =>
    have h₁ : k + min (lo - k) vs.length = max lo k := by omega
    have h₂ : min (up - k) vs.length - min (lo - k) vs.length =
        min up (k + vs.length) - max lo k := by omega
    have hbefore : (List.range' lo (max lo k - lo)).filterMap
        (fun i => (at? (k, vs) i).map (i, ·)) = [] :=
      range'_filterMap_none fun i h₁ h₂ => by
        rw [at?_none_of_lt (by show i < k; omega), Option.map_none]
    have hafter : (List.range' (min up (k + vs.length)) (up - min up (k + vs.length))).filterMap
        (fun i => (at? (k, vs) i).map (i, ·)) = [] :=
      range'_filterMap_none fun i h₁ h₂ => by
        rw [at?_none_of_ge (by show k + vs.length ≤ i; omega), Option.map_none]
    rw [zipIdx_take (by omega), h₁, h₂, range'_split (Nat.le_max_left lo k) (by omega),
      range'_split h.le (Nat.min_le_left _ _), List.filterMap_append, List.filterMap_append,
      hbefore, hafter, List.append_nil, List.nil_append]

theorem entries_eq_flatMap {lo up : Nat} (h : Canonical runs) :
    (runs.filter (·.1 < up)).flatMap (fun r => entries [r] lo up) = entries runs lo up := by
  induction runs
  case nil => simp [entries]
  case cons r runs hi =>
    have ⟨_, _, hc⟩ := Canonical.cons_iff.mp h
    rw [entries_cons h, ← hi hc]
    by_cases hr : r.1 < up
    case pos => simp [hr]
    case neg =>
      have hn : entries [r] lo up = [] := range'_filterMap_none fun i h₁ h₂ => by
        simp [at?_none_of_lt (show i < r.1 by omega)]
      simp [hr, hn]

theorem vals_eq_entries (h : Canonical runs) (hb : ∀ r ∈ runs, r.1 + r.2.length ≤ n) :
    vals runs = (entries runs 0 n).map (·.2) := by
  induction runs
  case nil => simp [entries]
  case cons r runs hi =>
    have ⟨_, _, hc⟩ := Canonical.cons_iff.mp h
    have ⟨hr, hb⟩ := List.forall_mem_cons.mp hb
    have hs : (entries [r] 0 n).map (·.2) = r.2 := by
      rw [← entries_singleton, Nat.zero_sub, Nat.zero_min, Nat.sub_zero, List.drop_zero,
        Nat.min_eq_right (by omega), List.take_of_length_le (by simp)]
      simp [Function.comp_def]
    rw [entries_cons h, List.map_append, hs, vals_cons, hi hc hb]

-- Replacing values in place keeps the shape of the runs.

theorem Canonical.map {f : Nat × List α → List α} (h : Canonical runs)
    (hf : ∀ r ∈ runs, (f r).length = r.2.length) : Canonical (runs.map fun r => (r.1, f r)) where
  nonempty := by
    simp only [List.mem_map, forall_exists_index, and_imp, forall_apply_eq_imp_iff₂]
    intro r hm he
    have := h.length_pos hm
    rw [← hf r hm, he] at this
    cases this
  gaps := by
    rw [List.pairwise_map]
    exact h.gaps.imp_of_mem fun hr _ hg => by simpa only [hf _ hr] using hg

theorem at?_map {β : Type*} {f : α → β} : at? (k, vs.map f) n = (at? (k, vs) n).map f := by
  simp only [at?, List.getElem?_map]
  split <;> rfl

theorem at?_modify {f : α → α} {m : Nat} (h : k ≤ m) :
    at? (k, vs.modify (m - k) f) n = if n = m then (at? (k, vs) n).map f else at? (k, vs) n := by
  simp only [at?, List.getElem?_modify]
  by_cases hn : k ≤ n
  case neg => simp [hn]
  case pos =>
    by_cases he : n = m
    case pos => simp [he, h]
    case neg => simp [hn, he, show m - k ≠ n - k by omega]

theorem den_map {g : Nat × List α → List α} {f : Option α → Option α} (hf : f none = none)
    (hg : ∀ r ∈ runs, at? (r.1, g r) n = f (at? r n)) (hs : ∀ a, (f (some a)).isSome) :
    den (runs.map fun r => (r.1, g r)) n = f (den runs n) := by
  induction runs
  case nil => simp [hf]
  case cons r runs hi =>
    have ⟨hr, hg⟩ := List.forall_mem_cons.mp hg
    rw [List.map_cons, den_cons, den_cons, hr, hi hg]
    cases at? r n
    case none => simp [hf]
    case some a =>
      have ⟨b, hb⟩ := Option.isSome_iff_exists.mp (hs a)
      simp [hb]

end RunMap
