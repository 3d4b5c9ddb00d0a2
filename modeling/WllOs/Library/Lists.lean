import Mathlib

-- Lists as indexed collections: what the replacement or the removal of one element changes.
namespace Lists

variable {α β : Type*} {xs : List α} {x y : α} {i : Nat} {f : α → List β}

theorem split_at (h : xs[i]? = some x) : xs = xs.take i ++ x :: xs.drop (i + 1) := by
  have ⟨hi, hx⟩ := List.getElem?_eq_some_iff.mp h
  rw [← hx, ← List.drop_eq_getElem_cons hi, List.take_append_drop]

theorem set_split (h : xs[i]? = some x) : xs.set i y = xs.take i ++ y :: xs.drop (i + 1) := by
  have ⟨hi, _⟩ := List.getElem?_eq_some_iff.mp h
  simp [List.set_eq_take_append_cons_drop, hi]

theorem set_insertIdx_split {z : α} (h : xs[i]? = some x) :
    (xs.set i y).insertIdx (i + 1) z = xs.take i ++ y :: z :: xs.drop (i + 1) := by
  induction xs generalizing i
  case nil => cases h
  case cons w xs hi =>
    cases i
    case zero => simp
    case succ i => simpa using hi (by simpa using h)

theorem set_flatMap_perm (h : xs[i]? = some x) :
    (f x ++ (xs.set i y).flatMap f).Perm (f y ++ xs.flatMap f) := by
  rw [set_split h]
  conv => rhs; rw [split_at h]
  simp only [List.flatMap_append, List.flatMap_cons]
  refine (List.perm_append_comm_assoc ..).trans ?_
  refine .trans ?_ (List.perm_append_comm_assoc ..)
  exact (List.perm_append_comm_assoc ..).append_left _

theorem eraseIdx_flatMap_perm (h : xs[i]? = some x) :
    (f x ++ (xs.eraseIdx i).flatMap f).Perm (xs.flatMap f) := by
  rw [List.eraseIdx_eq_take_drop_succ]
  conv => rhs; rw [split_at h]
  simp only [List.flatMap_append, List.flatMap_cons]
  exact List.perm_append_comm_assoc ..

theorem forall_mem_set {p : α → Prop} (h : ∀ z ∈ xs, p z) (hy : p y) : ∀ z ∈ xs.set i y, p z := by
  intro z hz
  cases List.mem_or_eq_of_mem_set hz
  case inl hz => exact h z hz
  case inr he => exact he ▸ hy

theorem map_set_of {γ : Type*} {g : α → γ} {c : γ} (hc : g y = c) :
    (xs.set i y).map g = (xs.map g).set i c := by
  rw [List.map_set, hc]

theorem getElem?_append_cases (h : (xs ++ [x])[i]? = some y) :
    xs[i]? = some y ∨ i = xs.length ∧ y = x := by
  rcases Nat.lt_trichotomy i xs.length with hi | hi | hi
  case inl => exact .inl (by rwa [List.getElem?_append_left hi] at h)
  case inr.inl => exact .inr ⟨hi, by simpa [hi] using h.symm⟩
  case inr.inr => rw [List.getElem?_eq_none (by simp; omega)] at h; cases h

theorem length_filter_lt {p q : α → Bool} (h : ∀ z ∈ xs, p z → q z) (hx : x ∈ xs) (hq : q x)
    (hp : ¬p x) : (xs.filter p).length < (xs.filter q).length := by
  have hf : xs.filter p = (xs.filter q).filter p := by
    rw [List.filter_filter]
    refine List.filter_congr fun z hz => ?_
    cases hpz : p z
    case false => rfl
    case true => simp [h z hz hpz]
  rw [hf]
  exact List.length_filter_lt_length_iff_exists.mpr ⟨x, List.mem_filter.mpr ⟨hx, hq⟩, hp⟩

section MaxByKey

variable {key : α → Nat}

-- The last of the elements with the greatest key.
def maxByKey (key : α → Nat) (xs : List α) : Option α :=
  xs.reverse.argmax key

theorem maxByKey_mem (h : maxByKey key xs = some x) : x ∈ xs :=
  List.mem_reverse.mp (List.argmax_mem h)

theorem le_of_maxByKey (h : maxByKey key xs = some x) (hy : y ∈ xs) : key y ≤ key x :=
  List.le_of_mem_argmax (List.mem_reverse.mpr hy) h

theorem maxByKey_eq_none : maxByKey key xs = none ↔ xs = [] := by
  rw [maxByKey, List.argmax_eq_none, List.reverse_eq_nil_iff]

-- An element with a greater key than all others is the one.
theorem maxByKey_of_greatest (hx : x ∈ xs) (h : ∀ y ∈ xs, y ≠ x → key y < key x) : maxByKey key xs = some x := by
  cases hm : maxByKey key xs
  case none => rw [maxByKey_eq_none.mp hm] at hx; cases hx
  case some y =>
    apply congrArg some
    apply Classical.byContradiction
    intro hn
    exact absurd (le_of_maxByKey hm hx) (Nat.not_le.mpr (h y (maxByKey_mem hm) hn))

theorem maxByKey_isSome (hx : x ∈ xs) : ∃ y, maxByKey key xs = some y := by
  cases hm : maxByKey key xs
  case none => rw [maxByKey_eq_none.mp hm] at hx; cases hx
  case some y => exact ⟨y, rfl⟩

end MaxByKey

theorem findSome?_pair {f : α → Option β} : [x, y].findSome? f = (f x).or (f y) := by
  cases hx : f x <;> cases hy : f y <;> simp [hx, hy]

section Forall₂

variable {R : α → β → Prop} {ys : List β} {z : β}

theorem exists_of_mem_right (h : List.Forall₂ R xs ys) (hz : z ∈ ys) : ∃ x ∈ xs, R x z := by
  induction h
  case nil => cases hz
  case cons x w xs ys hr _ hi =>
    rcases List.mem_cons.mp hz with rfl | hz
    case inl => exact ⟨x, by simp, hr⟩
    case inr =>
      have ⟨x', hx', hr'⟩ := hi hz
      exact ⟨x', by simp [hx'], hr'⟩

theorem exists_of_mem_left (h : List.Forall₂ R xs ys) (hx : x ∈ xs) : ∃ y ∈ ys, R x y :=
  exists_of_mem_right h.flip hx

theorem forall₂_map_eq {γ : Type*} {f : α → γ} {g : β → γ} (h : List.Forall₂ R xs ys)
    (hr : ∀ x y, R x y → g y = f x) : ys.map g = xs.map f := by
  induction h
  case nil => rfl
  case cons x y _ _ hxy _ hi => simp [hr x y hxy, hi]

-- Elements that correspond to each other are found at the same time.
theorem forall₂_findSome? {γ δ ε : Type*} {f : α → Option γ} {g : β → Option δ} {u : γ → ε} {v : δ → ε}
    (h : List.Forall₂ R xs ys) (hr : ∀ x ∈ xs, ∀ y, R x y → (g y).map v = (f x).map u) :
    (ys.findSome? g).map v = (xs.findSome? f).map u := by
  induction h
  case nil => rfl
  case cons x y xs ys hxy _ hi =>
    have ⟨hx, hr⟩ := List.forall_mem_cons.mp hr
    have hxy := hx y hxy
    have hi := hi hr
    cases hf : f x <;> cases hg : g y <;> simp_all

end Forall₂

section Take

open List

variable {n : Nat}

-- Filtering commutes with taking the first elements if these are all kept, or if none of the others is.
theorem take_filter_eq_iff {p : α → Bool} :
    (xs.filter p).take n = (xs.take n).filter p ↔ (∀ x ∈ xs.take n, p x) ∨ ∀ x ∈ xs.drop n, ¬p x := by
  have hsplit : xs.filter p = (xs.take n).filter p ++ (xs.drop n).filter p := by
    rw [← filter_append, take_append_drop]
  have hle : ((xs.take n).filter p).length ≤ n := (length_filter_le ..).trans (length_take_le ..)
  have htake : (xs.filter p).take n =
      (xs.take n).filter p ++ ((xs.drop n).filter p).take (n - ((xs.take n).filter p).length) := by
    rw [hsplit, take_append, take_of_length_le hle]
  have hall : (∀ x ∈ xs.take n, p x) ↔ ((xs.take n).filter p).length = (xs.take n).length := by
    rw [← filter_eq_self]
    exact ⟨congrArg length, fun h => filter_sublist.eq_of_length h⟩
  rw [htake, append_right_eq_self, take_eq_nil_iff, filter_eq_nil_iff, hall]
  have hlen := length_take (i := n) (l := xs)
  refine or_congr_left' fun hd => ?_
  have hdrop : xs.drop n ≠ [] := fun h => hd (by simp [h])
  have hlt : n < xs.length := by simpa using hdrop
  omega

theorem drop_filter_of_take {p : α → Bool} (h : (xs.filter p).take n = (xs.take n).filter p) :
    (xs.filter p).drop n = (xs.drop n).filter p := by
  have hsplit : xs.filter p = (xs.take n).filter p ++ (xs.drop n).filter p := by
    rw [← filter_append, take_append_drop]
  have hdrop := take_append_drop n (xs.filter p)
  rw [h] at hdrop
  exact append_cancel_left (hdrop.trans hsplit)

-- What is left of a list without its first elements.
theorem filter_not_mem_take [DecidableEq α] (h : xs.Nodup) : xs.filter (· ∉ xs.take n) = xs.drop n := by
  have hdisjoint : ∀ x ∈ xs.drop n, x ∉ xs.take n := by
    intro x hd ht
    rw [← take_append_drop n xs] at h
    exact (disjoint_of_nodup_append h) ht hd
  calc xs.filter (· ∉ xs.take n)
      = (xs.take n).filter (· ∉ xs.take n) ++ (xs.drop n).filter (· ∉ xs.take n) := by
        rw [← filter_append, take_append_drop]
    _ = xs.drop n := by
        rw [filter_eq_nil_iff.mpr (by simp), filter_eq_self.mpr (by simpa using hdisjoint), nil_append]

-- Lists whose elements a function tells apart are told apart by it as well.
theorem eq_of_map_eq {ys zs : List α} {g : α → β} (hg : ∀ x ∈ xs, ∀ y ∈ xs, g x = g y → x = y) (hy : ys ⊆ xs)
    (hz : zs ⊆ xs) (h : ys.map g = zs.map g) : ys = zs := by
  induction ys generalizing zs
  case nil => simpa using h.symm
  case cons y ys hi =>
    cases zs
    case nil => simp at h
    case cons z zs =>
      obtain ⟨he, h⟩ := cons.inj h
      obtain ⟨hy, hys⟩ := cons_subset.mp hy
      obtain ⟨hz, hzs⟩ := cons_subset.mp hz
      rw [hg y hy z hz he, hi hys hzs h]

end Take

-- What has one of two properties is counted twice if it has both.
theorem countP_or_add {p q : α → Bool} :
    xs.countP (fun x => p x || q x) + xs.countP (fun x => p x && q x) = xs.countP p + xs.countP q := by
  induction xs
  case nil => rfl
  case cons x xs hi =>
    simp only [List.countP_cons]
    cases p x <;> cases q x <;> simp only [Bool.or_false, Bool.or_true, Bool.and_false, Bool.and_true, if_true,
      Bool.false_eq_true, if_false, Nat.add_zero] <;> omega

end Lists

-- Growable buffers as lists: resizing with a filler, slices, and the copy of a slice into a buffer. The elements of a
-- buffer are followed by the filler without an end.
namespace Buffer

variable {α : Type*} {v bytes : List α} {filler : α} {pos n i : Nat}

def resize (filler : α) (v : List α) (n : Nat) : List α :=
  v.take n ++ List.replicate (n - v.length) filler

def slice (v : List α) (pos n : Nat) : List α :=
  (v.drop pos).take n

def overwrite (v : List α) (pos : Nat) (bytes : List α) : List α :=
  v.take pos ++ bytes ++ v.drop (pos + bytes.length)

@[simp]
theorem length_resize : (resize filler v n).length = n := by
  simp [resize]
  omega

theorem length_slice (v : List α) (pos n : Nat) : (slice v pos n).length = min n (v.length - pos) := by
  simp [slice]

theorem length_overwrite (h : pos + bytes.length ≤ v.length) : (overwrite v pos bytes).length = v.length := by
  simp [overwrite]
  omega

theorem getD_resize : (resize filler v n).getD i filler = if i < n then v.getD i filler else filler := by
  simp only [resize, List.getD_eq_getElem?_getD, List.getElem?_append, List.getElem?_take, List.getElem?_replicate,
    List.length_take]
  grind

-- A buffer that grows when it is too short.
theorem resize_max (v : List α) (n : Nat) :
    (if v.length < n then resize filler v n else v) = resize filler v (max v.length n) := by
  split
  case isTrue h => rw [Nat.max_eq_right (by omega)]
  case isFalse h => simp [resize, Nat.max_eq_left (Nat.le_of_not_lt h)]

theorem getD_slice : (slice v pos n).getD i filler = if i < n then v.getD (pos + i) filler else filler := by
  simp only [slice, List.getD_eq_getElem?_getD, List.getElem?_take, List.getElem?_drop]
  grind

theorem getD_overwrite (h : pos ≤ v.length) : (overwrite v pos bytes).getD i filler =
    if pos ≤ i ∧ i < pos + bytes.length then bytes.getD (i - pos) filler else v.getD i filler := by
  simp only [overwrite, List.getD_eq_getElem?_getD, List.getElem?_append, List.getElem?_take, List.getElem?_drop,
    List.length_append, List.length_take]
  grind

@[simp]
theorem overwrite_nil : overwrite v pos [] = v := by
  simp [overwrite]

theorem getD_of_length_le (h : v.length ≤ i) : v.getD i filler = filler := by
  simp [List.getD_eq_getElem?_getD, List.getElem?_eq_none h]

-- A buffer that is given by the elements at its positions.
theorem getD_map_range (f : Nat → α) : ((List.range n).map f).getD i filler = if i < n then f i else filler := by
  simp only [List.getD_eq_getElem?_getD, List.getElem?_map]
  split
  case isTrue h => rw [List.getElem?_range h, Option.map_some, Option.getD_some]
  case isFalse h => rw [List.getElem?_eq_none (by simpa using h), Option.map_none, Option.getD_none]

-- What is copied in two parts.
theorem map_range_append (f : Nat → α) (pos : Nat) {count len : Nat} (h : count ≤ len) :
    ((List.range count).map fun i => f (pos + i)) ++ ((List.range (len - count)).map fun i => f (pos + count + i)) =
      (List.range len).map fun i => f (pos + i) := by
  obtain ⟨rest, rfl⟩ := Nat.exists_eq_add_of_le h
  rw [List.range_add, List.map_append, List.map_map, Nat.add_sub_cancel_left]
  congr 1
  apply List.map_congr_left
  intro i _
  simp [Nat.add_assoc]

-- Buffers are equal if they have the same length and the same elements.
theorem ext_getD {w : List α} (hl : v.length = w.length) (h : ∀ i, v.getD i filler = w.getD i filler) : v = w := by
  apply List.ext_getElem hl
  intro i hv hw
  simpa [List.getD_eq_getElem?_getD, hv, hw] using h i

end Buffer
