import WllOs.Mm.ResidentSet

namespace WllOs.ResidentSet

open RunMap

variable {left right runs : Runs ResidentPage} {run pages : List ResidentPage} {key start n : Nat}

-- What `insert_run_pages` puts into the map: a run between the runs on its left and on its right.
-- The joins keep the pages and their indices, but make the runs maximal.
structure Between (left right : Runs ResidentPage) (start : Nat) (run : List ResidentPage) : Prop where
  canonical : Canonical (left ++ right)
  nonempty  : run ≠ []
  left_le   : ∀ l ∈ left, l.1 + l.2.length ≤ start
  le_right  : ∀ r ∈ right, start + run.length ≤ r.1
  bound     : ∀ r ∈ left ++ (start, run) :: right, r.1 + r.2.length ≤ Usize.max

namespace Between

theorem left_lt (h : Between left right start run) : ∀ l ∈ left, l.1 < start := by
  intro l hl
  have := h.left_le l hl
  have := h.canonical.length_pos (List.mem_append_left right hl)
  omega

theorem length_pos (h : Between left right start run) : 0 < run.length :=
  List.length_pos_iff.mpr h.nonempty

theorem lt_right (h : Between left right start run) : ∀ r ∈ right, start < r.1 := by
  intro r hr
  have := h.le_right r hr
  have := h.length_pos
  omega

theorem joinLeft (h : Between left right start run) :
    ∃ left' key' run', joinLeft (left ++ right) start run = (key', run', left' ++ right) ∧
    Between left' right key' run' ∧ key' + run'.length = start + run.length ∧
    (∀ l ∈ left', l.1 + l.2.length < key') ∧
    (∀ n, den (left' ++ (key', run') :: right) n = den (left ++ (start, run) :: right) n) ∧
    vals (left' ++ (key', run') :: right) = vals (left ++ (start, run) :: right) := by
  have hl := lastLT_between h.left_lt h.lt_right
  rcases List.eq_nil_or_concat' left with rfl | ⟨init, ⟨ls, lv⟩, rfl⟩
  case inl =>
    refine ⟨[], start, run, ?_, h, rfl, by simp, fun _ => rfl, rfl⟩
    rw [List.nil_append] at hl ⊢
    simp only [ResidentSet.joinLeft, hl, List.getLast?_nil]
  case inr =>
    have ⟨hc, hr, hg⟩ := Canonical.append_iff.mp h.canonical
    have ⟨hi, _, hlast⟩ := Canonical.append_iff.mp hc
    have hsat : Usize.saturatingAdd ls lv.length = ls + lv.length :=
      Usize.saturatingAdd_eq (h.bound (ls, lv) (by simp))
    have hle : ls + lv.length ≤ start := h.left_le (ls, lv) (by simp)
    simp only [List.getLast?_concat] at hl
    by_cases he : ls + lv.length = start
    case neg =>
      refine ⟨init ++ [(ls, lv)], start, run, ?_, h, rfl, ?_, fun _ => rfl, rfl⟩
      case refine_1 => simp only [ResidentSet.joinLeft, hl, hsat, he, ite_false]
      case refine_2 =>
        intro l hm
        cases List.mem_append.mp hm
        case inl hm =>
          have : l.1 + l.2.length < ls := hlast l hm (ls, lv) (by simp)
          omega
        case inr hm =>
          rw [List.mem_singleton.mp hm]
          exact lt_of_le_of_ne hle he
    case pos =>
      have hlt : ∀ l ∈ init, l.1 < ls := fun l hm => by
        have : l.1 + l.2.length < ls := hlast l hm (ls, lv) (by simp)
        omega
      have hgt : ∀ r ∈ right, ls < r.1 := fun r hm => by
        have : ls + lv.length < r.1 := hg (ls, lv) (by simp) r hm
        omega
      refine ⟨init, ls, lv ++ run, ?_, ?_, ?_, ?_, ?_, ?_⟩
      case refine_1 =>
        simp only [ResidentSet.joinLeft, hl, hsat, he, ite_true]
        rw [List.append_assoc, List.singleton_append, eraseKey_between hlt hgt]
      case refine_2 =>
        refine ⟨Canonical.append_iff.mpr ⟨hi, hr, fun l hm r => hg l (by simp [hm]) r⟩,
          by simp [h.nonempty], fun l hm => ?_, fun r hm => ?_, fun r hm => ?_⟩
        · exact (hlast l hm (ls, lv) (by simp)).le
        · have := h.le_right r hm
          simp only [List.length_append]
          omega
        · simp only [List.mem_append, List.mem_cons] at hm
          rcases hm with hm | rfl | hm
          · exact h.bound r (by simp [hm])
          · have : start + run.length ≤ Usize.max := h.bound (start, run) (by simp)
            simp only [List.length_append]
            omega
          · exact h.bound r (by simp [hm])
      case refine_3 => simp only [List.length_append]; omega
      case refine_4 => exact fun l hm => hlast l hm (ls, lv) (by simp)
      case refine_5 =>
        intro n
        simp only [den_append, den_cons, at?_append, den_nil, Option.or_none, Option.or_assoc, he]
      case refine_6 => simp

theorem joinRight (h : Between left right start run) (hl : ∀ l ∈ left, l.1 + l.2.length < start) :
    ∃ run' right', joinRight (left ++ right) start run = (run', left ++ right') ∧
    Between left right' start run' ∧ (∀ r ∈ right', start + run'.length < r.1) ∧
    (∀ n, den (left ++ (start, run') :: right') n = den (left ++ (start, run) :: right) n) ∧
    vals (left ++ (start, run') :: right') = vals (left ++ (start, run) :: right) := by
  have hsat : Usize.saturatingAdd start run.length = start + run.length :=
    Usize.saturatingAdd_eq (h.bound (start, run) (by simp))
  have hne : ∀ l ∈ left, l.1 < start + run.length := fun l hm => by have := hl l hm; omega
  rcases right with _ | ⟨⟨rs, rv⟩, tail⟩
  case nil =>
    refine ⟨run, [], ?_, h, by simp, fun _ => rfl, rfl⟩
    have hn : findKey (left ++ []) (start + run.length) = none :=
      findKey_eq_none.mpr fun l hm => (hne l (by simpa using hm)).ne
    simp only [ResidentSet.joinRight, hsat, hn]
  case cons =>
    have ⟨hcl, hcr, hg⟩ := Canonical.append_iff.mp h.canonical
    have ⟨_, htail, hct⟩ := Canonical.cons_iff.mp hcr
    have hle : start + run.length ≤ rs := h.le_right (rs, rv) (by simp)
    have htail : ∀ r ∈ tail, rs + rv.length < r.1 := htail
    by_cases he : start + run.length = rs
    case neg =>
      have hgt : ∀ r ∈ (rs, rv) :: tail, start + run.length < r.1 :=
        List.forall_mem_cons.mpr ⟨by show _ < rs; omega, fun r hm => by have := htail r hm; omega⟩
      refine ⟨run, (rs, rv) :: tail, ?_, h, hgt, fun _ => rfl, rfl⟩
      have hn : findKey (left ++ (rs, rv) :: tail) (start + run.length) = none :=
        findKey_eq_none.mpr fun r hm =>
          (List.mem_append.mp hm).elim (fun hm => (hne r hm).ne) (fun hm => (hgt r hm).ne')
      simp only [ResidentSet.joinRight, hsat, hn]
    case pos =>
      have hgt : ∀ r ∈ tail, start + run.length < r.1 := fun r hm => by have := htail r hm; omega
      refine ⟨run ++ rv, tail, ?_, ?_, ?_, ?_, ?_⟩
      case refine_1 =>
        simp only [ResidentSet.joinRight, hsat]
        rw [← he, findKey_between hne, eraseKey_between hne hgt]
      case refine_2 =>
        refine ⟨Canonical.append_iff.mpr ⟨hcl, hct, fun l hm r hm' => hg l hm r (by simp [hm'])⟩,
          by simp [h.nonempty], h.left_le, fun r hm => ?_, fun r hm => ?_⟩
        · have := htail r hm
          simp only [List.length_append]
          omega
        · simp only [List.mem_append, List.mem_cons] at hm
          rcases hm with hm | rfl | hm
          · exact h.bound r (by simp [hm])
          · have : rs + rv.length ≤ Usize.max := h.bound (rs, rv) (by simp)
            simp only [List.length_append]
            omega
          · exact h.bound r (by simp [hm])
      case refine_3 =>
        intro r hm
        have := htail r hm
        simp only [List.length_append]
        omega
      case refine_4 =>
        intro n
        simp only [den_append, den_cons, at?_append, Option.or_assoc, he]
      case refine_5 => simp

-- The two joins turn the plain insertion into canonical runs for the same map.
theorem coalesce (h : Between left right start run) (count : Nat) :
    ∃ runs', coalesceAdjacent ⟨left ++ (start, run) :: right, count⟩ start = ⟨runs', count⟩ ∧
    Canonical runs' ∧ (∀ r ∈ runs', r.1 + r.2.length ≤ Usize.max) ∧
    (∀ n, den runs' n = den (left ++ (start, run) :: right) n) ∧
    vals runs' = vals (left ++ (start, run) :: right) := by
  have ⟨left', key, run', he, h', _, hlt, hd, hv⟩ := h.joinLeft
  have ⟨run'', right', he', h'', hgt, hd', hv'⟩ := h'.joinRight hlt
  refine ⟨left' ++ (key, run'') :: right', ?_, ?_, h''.bound, ?_, hv'.trans hv⟩
  case refine_1 =>
    simp only [coalesceAdjacent, findKey_between h.left_lt, eraseKey_between h.left_lt h.lt_right, he,
      he', insertKey_between h''.left_lt h''.lt_right]
  case refine_2 => exact h''.canonical.insert_between h''.nonempty hlt hgt
  case refine_3 => exact fun n => (hd' n).trans (hd n)

end Between

theorem WF.new : WF new where
  canonical := .nil
  count_eq  := rfl
  bound     := by simp [ResidentSet.new]

variable {self : ResidentSet}

theorem lookup_eq_den (h : self.WF) : self.lookup n = den self.runs n :=
  h.canonical.lastLE_bind

@[simp]
theorem lookup_new : new.lookup n = none :=
  rfl

@[simp]
theorem iter_new : new.iter = [] :=
  rfl

theorem WF.count_eq_zero (h : self.WF) : self.count = 0 ↔ self = .new := by
  refine ⟨fun hc => ?_, fun hn => hn ▸ rfl⟩
  have hr : self.runs = [] := by
    cases hr : self.runs
    case nil => rfl
    case cons r runs =>
      have hl := h.canonical.length_pos (r := r) (by simp [hr])
      have := h.count_eq
      rw [hr, vals_cons, List.length_append] at this
      omega
  cases self
  simp_all [ResidentSet.new]

theorem WF.isEmpty_iff (h : self.WF) : self.isEmpty ↔ self = .new := by
  simp [isEmpty, h.count_eq_zero]

-- A well-formed resident set is determined by its lookup function.
theorem WF.ext {set : ResidentSet} (h : self.WF) (h' : set.WF) (hl : ∀ n, self.lookup n = set.lookup n) :
    self = set := by
  have hr : self.runs = set.runs :=
    h.canonical.ext h'.canonical fun n => by rw [← lookup_eq_den h, ← lookup_eq_den h', hl]
  have hc : self.count = set.count := by rw [h.count_eq, h'.count_eq, hr]
  cases self
  cases set
  simp_all

theorem WF.mem_iter (h : self.WF) {page : ResidentPage} :
    page ∈ self.iter ↔ ∃ n, self.lookup n = some page := by
  simp only [lookup_eq_den h, h.canonical.den_eq_some, iter, mem_vals]

-- All indices at or after the end of the last run are free.
theorem WF.lookup_none_of_last (h : self.WF) (start : Nat) :
    ∀ n, max ((self.runs.getLast?.map fun r => Usize.saturatingAdd r.1 r.2.length).getD start) start ≤ n →
      self.lookup n = none := by
  intro n hn
  rw [lookup_eq_den h]
  rcases List.eq_nil_or_concat' self.runs with hr | ⟨init, last, hr⟩
  case inl => simp [hr]
  case inr =>
    have hb := h.bound last (by simp [hr])
    have hle : last.1 + last.2.length ≤ n := by
      simp only [hr, List.getLast?_concat, Option.map_some, Option.getD_some,
        Usize.saturatingAdd_eq hb] at hn
      omega
    have hg := (List.pairwise_append.mp (hr ▸ h.canonical.gaps)).2.2
    refine den_eq_none.mpr fun r hm => at?_none_of_ge ?_
    cases List.mem_append.mp (hr ▸ hm)
    case inl hm => have := hg r hm last (by simp); omega
    case inr hm => exact List.mem_singleton.mp hm ▸ hle

theorem collides_eq_false (h : start + n ≤ Usize.max) :
    self.collides start n = false ↔ ∀ i, start ≤ i → i < start + n → self.lookup i = none := by
  simp only [collides, List.any_eq_false, List.mem_range, Bool.not_eq_true, Option.isSome_eq_false_iff,
    Option.isNone_iff_eq_none]
  constructor
  case mp =>
    intro hc i h₁ h₂
    have := hc (i - start) (by omega)
    rwa [Usize.saturatingAdd_eq (by omega), show start + (i - start) = i by omega] at this
  case mpr =>
    intro hc i hi
    rw [Usize.saturatingAdd_eq (by omega)]
    exact hc _ (by omega) (by omega)

-- The effect of a successful insertion of `pages` at `start`.
structure Inserted (set : ResidentSet) (start : Nat) (pages : List ResidentPage)
    (set' : ResidentSet) : Prop where
  wf     : set'.WF
  lookup : ∀ n, set'.lookup n = (at? (start, pages) n).or (set.lookup n)
  iter   : set'.iter.Perm (set.iter ++ pages)

theorem insertRunPages_ok (start : Nat) (pages : List ResidentPage) (h : self.WF) (hp : pages ≠ [])
    (hb : start + pages.length ≤ Usize.max)
    (hf : ∀ i, start ≤ i → i < start + pages.length → self.lookup i = none) :
    ∃ set, self.insertRunPages start pages = .ok set ∧ self.Inserted start pages set := by
  have hf' : ∀ i, start ≤ i → i < start + pages.length → den self.runs i = none := fun i h₁ h₂ =>
    lookup_eq_den h ▸ hf i h₁ h₂
  have hlen := List.length_pos_iff.mpr hp
  have ⟨hs, hl, hr⟩ := h.canonical.sides hlen hf'
  have hbt : Between (self.runs.filter (·.1 < start)) (self.runs.filter (start < ·.1)) start pages := {
    canonical := hs ▸ h.canonical
    nonempty := hp
    left_le := hl
    le_right := hr
    bound := by
      intro r hm
      simp only [List.mem_append, List.mem_cons, List.mem_filter] at hm
      rcases hm with ⟨hm, _⟩ | rfl | ⟨hm, _⟩
      · exact h.bound r hm
      · exact hb
      · exact h.bound r hm
  }
  have ⟨runs, he, hc, hbd, hd, hv⟩ := hbt.coalesce (Usize.saturatingAdd self.count pages.length)
  have hperm : (vals runs).Perm (vals self.runs ++ pages) := by
    conv => rhs; rw [hs]
    rw [hv]
    simp only [vals_append, vals_cons, List.append_assoc]
    exact (List.perm_append_comm).append_left _
  have hsat : Usize.saturatingAdd self.count pages.length = (vals runs).length := by
    have hle := hc.vals_length_le hbd
    rw [hperm.length_eq, List.length_append] at hle ⊢
    rw [h.count_eq, Usize.saturatingAdd_eq hle]
  refine ⟨⟨runs, Usize.saturatingAdd self.count pages.length⟩, ?_, ⟨hc, hsat, hbd⟩, fun n => ?_, hperm⟩
  case refine_1 =>
    have hn : self.collides start pages.length = false := (collides_eq_false hb).mpr hf
    simp only [insertRunPages, hn, List.isEmpty_eq_false_iff.mpr hp, Bool.or_self, Bool.false_eq_true,
      ite_false, insertKey, he]
  case refine_2 =>
    rw [lookup_eq_den ⟨hc, hsat, hbd⟩, lookup_eq_den h, hd, den_insert_between (hs ▸ hf'), ← hs]

theorem insertPart_ok (guard : Bool) (start : Nat) (pages : List ResidentPage) (h : self.WF)
    (hg : guard ↔ pages ≠ []) (hb : start + pages.length ≤ Usize.max)
    (hf : ∀ i, start ≤ i → i < start + pages.length → self.lookup i = none) :
    ∃ set, self.insertPart guard start pages = .ok set ∧ self.Inserted start pages set := by
  by_cases hc : guard
  case pos =>
    have ⟨set, he, hi⟩ := insertRunPages_ok start pages h (hg.mp hc) hb hf
    exact ⟨set, by simp [insertPart, hc, he, Checked.unwrap], hi⟩
  case neg =>
    have hp : pages = [] := by simpa [hc] using hg
    exact ⟨self, by simp [insertPart, hc], h, fun n => by simp [hp, at?], by simp [hp]⟩

section ExtractRange

variable {lo up : Nat}

-- The pieces of a run outside of and inside of the range `[lo, up)`.

theorem at?_outer (h : max lo start < min up (start + pages.length)) :
    (at? (start, pages.take (max lo start - start)) n).or
      (at? (min up (start + pages.length), (pages.drop (max lo start - start)).drop
        (min up (start + pages.length) - max lo start)) n) =
    if lo ≤ n ∧ n < up then none else at? (start, pages) n := by
  simp only [at?, List.getElem?_take, List.getElem?_drop]
  by_cases h₁ : n < max lo start
  case pos =>
    have h₂ : ¬(lo ≤ n ∧ n < up) ∨ n < start := by omega
    by_cases h₃ : start ≤ n
    case pos =>
      simp [h₃, show n - start < max lo start - start by omega, show ¬(lo ≤ n ∧ n < up) by omega,
        show ¬(min up (start + pages.length) ≤ n) by omega]
    case neg => simp [h₃, show ¬(min up (start + pages.length) ≤ n) by omega]
  case neg =>
    by_cases h₃ : min up (start + pages.length) ≤ n
    case pos =>
      have h₄ : max lo start - start + (min up (start + pages.length) - max lo start +
          (n - min up (start + pages.length))) = n - start := by omega
      simp only [h₃, ite_true, h₄, show ¬(n - start < max lo start - start) by omega, ite_false,
        ite_self, Option.none_or]
      by_cases h₅ : n < up
      case neg => simp [h₅, show start ≤ n by omega]
      case pos => simp [h₅, show start ≤ n by omega, show pages.length ≤ n - start by omega]
    case neg =>
      simp [h₃, show ¬(n - start < max lo start - start) by omega, show lo ≤ n ∧ n < up by omega]

theorem at?_inner (h : max lo start < min up (start + pages.length)) :
    at? (max lo start - lo, (pages.drop (max lo start - start)).take
      (min up (start + pages.length) - max lo start)) n =
    if n + lo < up then at? (start, pages) (n + lo) else none := by
  simp only [at?, List.getElem?_take, List.getElem?_drop]
  by_cases h₁ : max lo start - lo ≤ n
  case neg => simp [h₁, show ¬(start ≤ n + lo) by omega]
  case pos =>
    have h₂ : max lo start - start + (n - (max lo start - lo)) = n + lo - start := by omega
    simp only [h₁, ite_true, h₂, show start ≤ n + lo by omega]
    by_cases h₃ : n + lo < up
    case neg => simp [h₃, show ¬(n - (max lo start - lo) <
        min up (start + pages.length) - max lo start) by omega]
    case pos =>
      simp only [h₃, ite_true, ite_eq_left_iff]
      exact fun _ => (List.getElem?_eq_none (by omega)).symm

theorem at?_disjoint (h : ¬(max lo start < min up (start + pages.length))) (h₁ : lo ≤ n)
    (h₂ : n < up) : at? (start, pages) n = none :=
  at?_eq_none.mpr (by show n < start ∨ start + pages.length ≤ n; omega)

-- The effect of `extract_range` on some of the runs: those are split between the two sets.
structure Extracted (lo up : Nat) (runs : Runs ResidentPage) (set extracted set' extracted' : ResidentSet) :
    Prop where
  wf                : set'.WF
  wf_extracted      : extracted'.WF
  lookup            : ∀ n, set'.lookup n =
    (set.lookup n).or (if lo ≤ n ∧ n < up then none else den runs n)
  lookup_extracted  : ∀ n, extracted'.lookup n =
    (extracted.lookup n).or (if n + lo < up then den runs (n + lo) else none)
  iter              : (set'.iter ++ extracted'.iter).Perm (set.iter ++ extracted.iter ++ vals runs)

theorem extractRun_ok (lo up : Nat) {extracted : ResidentSet} (hs : self.WF) (he : extracted.WF) (hp : pages ≠ [])
    (hb : start + pages.length ≤ Usize.max) (hsl : ∀ n, start ≤ n → self.lookup n = none)
    (hel : ∀ n, start ≤ n + lo → extracted.lookup n = none) :
    ∃ self' extracted', extractRun lo up (start, pages) self extracted = .ok (self', extracted') ∧
    Extracted lo up [(start, pages)] self extracted self' extracted' := by
  have hsat := Usize.saturatingAdd_eq hb
  have hcomm : ∀ n (o : Option ResidentPage), (n < start → o = none) →
      o.or (self.lookup n) = (self.lookup n).or o := fun n o ho => by
    by_cases h : start ≤ n
    case pos => simp [hsl n h]
    case neg => simp [ho (by omega)]
  have hnone : ∀ n, n < start → at? (start, pages) n = none := fun n h => at?_none_of_lt h
  by_cases ho : max lo start < min up (start + pages.length)
  case neg =>
    have ⟨set, heq, hins⟩ := insertRunPages_ok start pages hs hp hb fun i h _ => hsl i h
    refine ⟨set, extracted, ?_, hins.wf, he, fun n => ?_, fun n => ?_, ?_⟩
    case refine_1 =>
      simp only [extractRun, hsat, ge_iff_le, Nat.le_of_not_lt ho, ite_true, heq, Checked.unwrap]
      rfl
    case refine_2 =>
      rw [hins.lookup, hcomm n _ (hnone n), den_cons, den_nil, Option.or_none]
      by_cases hn : lo ≤ n ∧ n < up
      case pos => simp [hn, at?_disjoint ho hn.1 hn.2]
      case neg => simp [hn]
    case refine_3 =>
      by_cases hn : n + lo < up
      case pos => simp [hn, at?_disjoint ho (Nat.le_add_left lo n) hn]
      case neg => simp [hn]
    case refine_4 =>
      simp only [vals_cons, vals_nil, List.append_nil]
      refine (hins.iter.append_right _).trans ?_
      simp only [List.append_assoc]
      exact (List.perm_append_comm).append_left _
  case pos =>
    -- The run is cut into the pieces before, inside of and after the range.
    have houter := fun n => at?_outer (n := n) ho
    have hinner := fun n => at?_inner (n := n) ho
    have hinit : (pages.take (max lo start - start)).length = max lo start - start := by
      simp; omega
    have hmid : ((pages.drop (max lo start - start)).take
        (min up (start + pages.length) - max lo start)).length =
        min up (start + pages.length) - max lo start := by simp; omega
    have hlast : ((pages.drop (max lo start - start)).drop
        (min up (start + pages.length) - max lo start)).length =
        start + pages.length - min up (start + pages.length) := by simp; omega
    have hparts := List.take_append_drop (max lo start - start) pages
    have hparts' := List.take_append_drop (min up (start + pages.length) - max lo start)
      (pages.drop (max lo start - start))
    simp only [extractRun, hsat, ge_iff_le, Nat.not_le_of_lt ho, ite_false]
    generalize pages.take (max lo start - start) = init at *
    generalize pages.drop (max lo start - start) = tail at *
    generalize tail.take (min up (start + pages.length) - max lo start) = mid at *
    generalize tail.drop (min up (start + pages.length) - max lo start) = last at *
    have ⟨set, heq, hins⟩ := insertPart_ok (max lo start - start ≠ 0) start init hs
      (by simp [← List.length_eq_zero_iff, hinit]) (by omega) (fun i h _ => hsl i h)
    have ⟨ex, heq', hins'⟩ := insertRunPages_ok (max lo start - lo) mid he
      (List.length_pos_iff.mp (by omega)) (by omega) (fun i _ _ => hel i (by omega))
    have ⟨set', heq'', hins''⟩ := insertPart_ok (!last.isEmpty) (min up (start + pages.length))
      last hins.wf (by simp) (by omega) (fun i h _ => by
        rw [hins.lookup, at?_none_of_ge (show start + init.length ≤ i by omega), hsl i (by omega)]
        rfl)
    refine ⟨set', ex, ?_, hins''.wf, hins'.wf, fun n => ?_, fun n => ?_, ?_⟩
    case refine_1 =>
      rw [heq, heq']
      show set.insertPart _ _ _ >>= _ = _
      rw [heq'']
      rfl
    case refine_2 =>
      have hswap : ∀ n, (at? (min up (start + pages.length), last) n).or (at? (start, init) n) =
          (at? (start, init) n).or (at? (min up (start + pages.length), last) n) := fun n => by
        by_cases h : n < min up (start + pages.length)
        case pos => simp [at?_none_of_lt (r := (min up (start + pages.length), last)) h]
        case neg => simp [at?_none_of_ge (r := (start, init)) (show start + init.length ≤ n by omega)]
      rw [hins''.lookup, hins.lookup, ← Option.or_assoc, hswap, houter,
        hcomm n _ fun h => by simp [hnone n h], den_cons, den_nil, Option.or_none]
    case refine_3 =>
      rw [hins'.lookup, hinner, den_cons, den_nil, Option.or_none]
      by_cases h : start ≤ n + lo
      case pos => simp [hel n h]
      case neg => simp [hnone (n + lo) (by omega)]
    case refine_4 =>
      simp only [vals_cons, vals_nil, List.append_nil]
      rw [← hparts, ← hparts']
      refine (hins''.iter.append hins'.iter).trans ?_
      refine ((hins.iter.append_right last).append_right _).trans ?_
      simp only [List.append_assoc]
      refine List.Perm.append_left _ ?_
      -- Both sides hold the three pieces and what was extracted before.
      refine List.Perm.append_left _ ?_ |>.trans (List.perm_append_comm_assoc ..)
      refine (List.perm_append_comm).trans ?_
      rw [List.append_assoc]

theorem extractRuns_ok (lo up : Nat) {extracted : ResidentSet} (hs : self.WF) (he : extracted.WF)
    (hc : Canonical runs) (hb : ∀ r ∈ runs, r.1 + r.2.length ≤ Usize.max)
    (hsl : ∀ r ∈ runs, ∀ n, r.1 ≤ n → self.lookup n = none)
    (hel : ∀ r ∈ runs, ∀ n, r.1 ≤ n + lo → extracted.lookup n = none) :
    ∃ self' extracted', extractRuns lo up runs self extracted = .ok (self', extracted') ∧
    Extracted lo up runs self extracted self' extracted' := by
  induction runs generalizing self extracted
  case nil => exact ⟨self, extracted, rfl, hs, he, by simp, by simp, by simp⟩
  case cons r runs hi =>
    have ⟨start, pages⟩ := r
    have ⟨hp, hg, hc⟩ := Canonical.cons_iff.mp hc
    have ⟨hbr, hb⟩ := List.forall_mem_cons.mp hb
    have ⟨hsr, hsl⟩ := List.forall_mem_cons.mp hsl
    have ⟨her, hel⟩ := List.forall_mem_cons.mp hel
    have ⟨set, ex, heq, h⟩ := extractRun_ok lo up hs he hp hbr hsr her
    have hn : ∀ r ∈ runs, ∀ n, r.1 ≤ n → at? (start, pages) n = none := fun r hm n hn =>
      at?_none_of_ge (by have := hg r hm; omega)
    have hlt : ∀ r ∈ runs, start ≤ r.1 := fun r hm => by
      have : start + pages.length < r.1 := hg r hm
      omega
    have ⟨set', ex', heq', h'⟩ := hi h.wf h.wf_extracted hc hb
      (fun r hm n hr => by simp [h.lookup, hsr n ((hlt r hm).trans hr), hn r hm n hr])
      (fun r hm n hr => by simp [h.lookup_extracted, her n ((hlt r hm).trans hr), hn r hm _ hr])
    refine ⟨set', ex', ?_, h'.wf, h'.wf_extracted, fun n => ?_, fun n => ?_, ?_⟩
    case refine_1 => simp only [extractRuns, heq]; exact heq'
    case refine_2 =>
      rw [h'.lookup, h.lookup]
      by_cases hc : lo ≤ n ∧ n < up <;> simp [hc, Option.or_assoc]
    case refine_3 =>
      rw [h'.lookup_extracted, h.lookup_extracted]
      by_cases hc : n + lo < up <;> simp [hc, Option.or_assoc]
    case refine_4 =>
      refine h'.iter.trans ?_
      rw [vals_cons, ← List.append_assoc]
      exact (by simpa using h.iter : (set.iter ++ ex.iter).Perm _).append_right _

theorem extractRange_ok (h : self.WF) (hr : lo ≤ up) :
    ∃ set extracted, self.extractRange lo up = .ok (some (set, extracted)) ∧
    set.WF ∧ extracted.WF ∧
    (∀ n, set.lookup n = if lo ≤ n ∧ n < up then none else self.lookup n) ∧
    (∀ n, extracted.lookup n = if n + lo < up then self.lookup (n + lo) else none) ∧
    (set.iter ++ extracted.iter).Perm self.iter := by
  have ⟨set, ex, he, hx⟩ := extractRuns_ok lo up .new .new h.canonical h.bound
    (fun _ _ _ _ => rfl) (fun _ _ _ _ => rfl)
  refine ⟨set, ex, ?_, hx.wf, hx.wf_extracted, fun n => ?_, fun n => ?_, hx.iter⟩
  case refine_1 => simp only [extractRange, Nat.not_lt_of_le hr, ite_false, he]; rfl
  case refine_2 => rw [hx.lookup, lookup_eq_den h, lookup_new, Option.none_or]
  case refine_3 => rw [hx.lookup_extracted, lookup_eq_den h, lookup_new, Option.none_or]

theorem splitOff_ok (h : self.WF) (hp : 0 < start) :
    ∃ set extracted, self.splitOff start = .ok (some (set, extracted)) ∧
    set.WF ∧ extracted.WF ∧
    (∀ n, set.lookup n = if n < start then self.lookup n else none) ∧
    (∀ n, extracted.lookup n = self.lookup (n + start)) ∧
    (set.iter ++ extracted.iter).Perm self.iter := by
  have hlast := h.lookup_none_of_last start
  have hle := Nat.le_max_right
    ((self.runs.getLast?.map fun r => Usize.saturatingAdd r.1 r.2.length).getD start) start
  simp only [splitOff, hp.ne', ite_false]
  generalize max ((self.runs.getLast?.map fun r => Usize.saturatingAdd r.1 r.2.length).getD start)
    start = up at *
  have ⟨set, ex, he, hw, hw', hl, hl', hi⟩ := extractRange_ok h hle
  refine ⟨set, ex, he, hw, hw', fun n => ?_, fun n => ?_, hi⟩
  case refine_1 =>
    rw [hl]
    by_cases hn : n < start
    case pos => simp [hn]
    case neg =>
      by_cases hu : n < up
      case pos => simp [hn, hu, Nat.le_of_not_lt hn]
      case neg => simp [hn, hu, hlast n (Nat.le_of_not_lt hu)]
  case refine_2 =>
    rw [hl', ite_eq_left_iff]
    exact fun hn => (hlast _ (Nat.le_of_not_lt hn)).symm

end ExtractRange

-- The indices of a run of a well-formed set are all resident.
theorem WF.run_le (h : self.WF) {r : Nat × List ResidentPage} (hm : r ∈ self.runs) (bound : Nat)
    (hb : ∀ n, self.lookup n ≠ none → n < bound) : r.1 + r.2.length ≤ bound := by
  have hp := h.canonical.length_pos hm
  have hl : self.lookup (r.1 + (r.2.length - 1)) ≠ none := by
    rw [lookup_eq_den h]
    refine Option.ne_none_iff_exists'.mpr ⟨r.2[r.2.length - 1], ?_⟩
    exact h.canonical.den_eq_some.mpr ⟨r, hm, by simp [at?]⟩
  have := hb _ hl
  omega

theorem mergeRuns_ok (offset : Nat) (hs : self.WF) (hc : Canonical runs)
    (hb : ∀ r ∈ runs, r.1 + r.2.length + offset ≤ Usize.max)
    (hf : ∀ n, (den runs n).isSome → self.lookup (n + offset) = none) :
    ∃ set, mergeRuns offset runs self = .ok set ∧ set.WF ∧
    (∀ n, set.lookup n = (self.lookup n).or (if offset ≤ n then den runs (n - offset) else none)) ∧
    set.iter.Perm (self.iter ++ vals runs) := by
  induction runs generalizing self
  case nil => exact ⟨self, rfl, hs, by simp, by simp⟩
  case cons r runs hi =>
    obtain ⟨start, pages⟩ := r
    obtain ⟨hp, hg, hc'⟩ := Canonical.cons_iff.mp hc
    obtain ⟨hbr, hb⟩ := List.forall_mem_cons.mp hb
    have hshift : ∀ n, at? (start + offset, pages) n =
        if offset ≤ n then at? (start, pages) (n - offset) else none := fun n => by
      simp only [at?]
      by_cases hn : start + offset ≤ n
      case pos =>
        simp [hn, show offset ≤ n by omega, show start ≤ n - offset by omega,
          show n - (start + offset) = n - offset - start by omega]
      case neg => simp [hn]; omega
    obtain ⟨set, heq, h⟩ := insertRunPages_ok (start + offset) pages hs hp (by simp at hbr; omega)
      fun i h₁ h₂ => by
        have hn := hf (i - offset) (by
          rw [den_cons, Option.isSome_or]
          simp [at?, show start ≤ i - offset by omega, show i - offset - start < pages.length by omega])
        rwa [show i - offset + offset = i by omega] at hn
    obtain ⟨set', heq', hw, hl, hiter⟩ := hi h.wf hc' hb fun n hn => by
      have hr : at? (start, pages) n = none := by
        rw [Option.isSome_iff_ne_none] at hn
        by_contra ha
        obtain ⟨a, ha⟩ := Option.ne_none_iff_exists'.mp ha
        exact hn (hc.den_cons_lt (at?_bounds ha).2.le)
      have hself := hf n (by simp [hn])
      rw [h.lookup, hself, hshift]
      simp [hr]
    refine ⟨set', ?_, hw, fun n => ?_, ?_⟩
    case refine_1 =>
      simp only [mergeRuns, Usize.saturatingAdd_eq (a := start) (b := offset) (by simp at hbr; omega),
        heq]
      exact heq'
    case refine_2 =>
      have hcomm : (at? (start + offset, pages) n).or (self.lookup n) =
          (self.lookup n).or (at? (start + offset, pages) n) := by
        cases ha : at? (start + offset, pages) n
        case none => simp
        case some a =>
          have hbd := at?_bounds ha
          have hn := hf (n - offset) (by
            rw [hshift, ite_eq_left_iff.mpr (fun h => absurd (show offset ≤ n by simp at hbd; omega) h)]
              at ha
            simp [ha])
          rw [show n - offset + offset = n by simp at hbd; omega] at hn
          simp [hn]
      rw [hl, h.lookup, hcomm, hshift, Option.or_assoc]
      by_cases hn : offset ≤ n <;> simp [hn]
    case refine_3 =>
      refine hiter.trans ?_
      rw [vals_cons, ← List.append_assoc]
      exact h.iter.append_right _

theorem mergeFromAt_ok {other : ResidentSet} (offset : Nat) (h : self.WF) (ho : other.WF)
    (hs : ∀ n, self.lookup n ≠ none → n < offset)
    (hb : ∀ n, other.lookup n ≠ none → n + offset < Usize.max) :
    ∃ set, self.mergeFromAt offset other = .ok set ∧ set.WF ∧
    (∀ n, set.lookup n = if offset ≤ n then other.lookup (n - offset) else self.lookup n) ∧
    set.iter.Perm (self.iter ++ other.iter) := by
  have hnone : ∀ n, offset ≤ n → self.lookup n = none := fun n hn =>
    by_contra fun hl => absurd (hs n hl) (Nat.not_lt_of_le hn)
  have hrun : ∀ r ∈ other.runs, r.1 + r.2.length + offset ≤ Usize.max := fun r hm => by
    have hp := ho.canonical.length_pos hm
    have := ho.run_le hm (Usize.max - offset) fun n hn => by have := hb n hn; omega
    omega
  have ⟨set, he, hw, hl, hi⟩ := mergeRuns_ok offset h ho.canonical hrun
    fun n _ => hnone _ (Nat.le_add_left offset n)
  refine ⟨set, he, hw, fun n => ?_, hi⟩
  rw [hl, lookup_eq_den ho]
  by_cases hn : offset ≤ n <;> simp [hn, hnone]

-- The insertions either store all of the given pages or leave the set as it is.

theorem collides_iff (h : start + n ≤ Usize.max) :
    self.collides start n ↔ ∃ i, start ≤ i ∧ i < start + n ∧ self.lookup i ≠ none := by
  rw [← not_iff_not, Bool.not_eq_true, collides_eq_false h]
  simp

theorem insertRunPages_error (pages : List ResidentPage) (hc : self.collides start pages.length) :
    self.insertRunPages start pages = .error pages := by
  simp [insertRunPages, hc]

theorem insertPage_ok (page : ResidentPage) (h : self.WF) (hb : n < Usize.max)
    (hf : self.lookup n = none) :
    ∃ set, self.insertPage page n = .ok set ∧ self.Inserted n [page] set := by
  have ⟨set, he, hi⟩ := insertRunPages_ok n [page] h (by simp) hb
    fun i h₁ h₂ => by
      rw [List.length_singleton] at h₂
      rwa [show i = n by omega]
  exact ⟨set, by simp [insertPage, he], hi⟩

theorem insertPage_error {page : ResidentPage} (hf : self.lookup n ≠ none) (hb : n < Usize.max) :
    self.insertPage page n = .error page := by
  have hc : self.collides n 1 := (collides_iff hb).mpr ⟨n, le_refl n, by omega, hf⟩
  simp [insertPage, insertRunPages_error [page] hc]

theorem insertPageWithState_ok (page : ResidentPage) (h : self.WF) (hb : n < Usize.max)
    (hf : self.lookup n = none) :
    ∃ set, self.insertPageWithState n page = .ok set ∧ self.Inserted n [page] set := by
  have ⟨set, he, hi⟩ := insertPage_ok page h hb hf
  exact ⟨set, by simp [insertPageWithState, he], hi⟩

theorem insertPageWithState_error (page : ResidentPage) (hf : self.lookup n ≠ none)
    (hb : n < Usize.max) : self.insertPageWithState n page = .error page.frame := by
  simp [insertPageWithState, insertPage_error hf hb]

theorem insert_ok (frame : Ppn) (h : self.WF) (hb : n < Usize.max) (hf : self.lookup n = none) :
    ∃ set, self.insert n frame = .ok (.ok set) ∧ self.Inserted n [.new frame] set := by
  have ⟨set, he, hi⟩ := insertPage_ok (.new frame) h hb hf
  exact ⟨set, by simp [insert, hf, he, Checked.unwrap], hi⟩

theorem insert_error {frame : Ppn} (hf : self.lookup n ≠ none) :
    self.insert n frame = .ok (.error frame) := by
  simp [insert, Option.isSome_iff_ne_none.mpr hf]

theorem insertRunWithState_ok (start : Nat) (frames : List Ppn) (state : PageState) (h : self.WF)
    (hp : frames ≠ []) (hb : start + frames.length ≤ Usize.max)
    (hf : ∀ i, start ≤ i → i < start + frames.length → self.lookup i = none) :
    ∃ set, self.insertRunWithState start frames state = .ok set ∧
    self.Inserted start (frames.map (⟨·, state⟩)) set := by
  have hc := (collides_eq_false hb).mpr hf
  have ⟨set, he, hi⟩ := insertRunPages_ok start (frames.map (⟨·, state⟩)) h (by simpa)
    (by simpa using hb) (by simpa using hf)
  exact ⟨set, by simp [insertRunWithState, hc, he], hi⟩

theorem insertRunWithState_error {frames : List Ppn} (state : PageState)
    (hc : frames = [] ∨ self.collides start frames.length) :
    self.insertRunWithState start frames state = .error frames := by
  rcases hc with rfl | hc
  case inl => simp [insertRunWithState, collides, insertRunPages]
  case inr => simp [insertRunWithState, hc]

theorem insertRun_ok (start : Nat) (frames : List Ppn) (h : self.WF) (hp : frames ≠ [])
    (hb : start + frames.length ≤ Usize.max)
    (hf : ∀ i, start ≤ i → i < start + frames.length → self.lookup i = none) :
    ∃ set, self.insertRun start frames = .ok (.ok set) ∧
    self.Inserted start (frames.map .new) set := by
  have hc := (collides_eq_false hb).mpr hf
  have ⟨set, he, hi⟩ := insertRunPages_ok start (frames.map .new) h (by simpa)
    (by simpa using hb) (by simpa using hf)
  exact ⟨set, by simp [insertRun, hc, he, Checked.unwrap], hi⟩

-- Assignments to resident pages.

section Update

variable {f : ResidentPage → ResidentPage}

theorem update_runs (h : self.WF) (f : ResidentPage → ResidentPage) :
    ∃ g : Nat × List ResidentPage → List ResidentPage,
    (self.update n f).runs = self.runs.map (fun r => (r.1, g r)) ∧
    (∀ r ∈ self.runs, (g r).length = r.2.length) ∧
    ∀ m, ∀ r ∈ self.runs, at? (r.1, g r) m = if m = n then (at? r m).map f else at? r m := by
  cases hl : lastLE self.runs n
  case none =>
    refine ⟨(·.2), by simp [update, hl], by simp, fun m r hm => ?_⟩
    split
    case isFalse => rfl
    case isTrue he =>
      have hn : ¬r.1 ≤ n := by
        simpa using List.filter_eq_nil_iff.mp (List.getLast?_eq_none_iff.mp hl) r hm
      simp [he, at?_none_of_lt (r := r) (Nat.lt_of_not_le hn)]
  case some s =>
    have ⟨_, hs, hu⟩ := h.canonical.lastLE_unique hl
    refine ⟨fun r => if r.1 = s.1 then r.2.modify (n - s.1) f else r.2, ?_, fun r hm => ?_,
      fun m r hm => ?_⟩
    case refine_1 =>
      simp only [update, hl, List.map_inj_left]
      intro r _
      split <;> rfl
    case refine_2 =>
      show (if r.1 = s.1 then _ else _ : List ResidentPage).length = _
      split <;> simp
    case refine_3 =>
      by_cases he : r.1 = s.1
      case pos => simp only [he, ite_true]; rw [← he] at hs ⊢; exact at?_modify hs
      case neg =>
        simp only [he, ite_false]
        split
        case isFalse => rfl
        case isTrue hm' => simp [hm', hu r hm he]

theorem update_lookup (h : self.WF) (m : Nat) :
    (self.update n f).lookup m = if m = n then (self.lookup m).map f else self.lookup m := by
  have ⟨g, hr, hlen, hat⟩ := update_runs (n := n) h f
  have hd : den (self.update n f).runs m =
      if m = n then (den self.runs m).map f else den self.runs m := by
    rw [hr]
    by_cases hm : m = n
    case pos => simpa [hm] using den_map (f := Option.map f) (n := n) rfl
                  (fun r hr => by simpa using hat n r hr) (by simp)
    case neg => simpa [hm] using den_map (f := id) (n := m) rfl
                  (fun r hr => by simpa [hm] using hat m r hr) (by simp)
  rw [lookup, Canonical.lastLE_bind (hr ▸ h.canonical.map hlen), hd, lookup_eq_den h]

theorem update_wf (h : self.WF) : (self.update n f).WF := by
  have ⟨g, hr, hlen, _⟩ := update_runs (n := n) h f
  have hcount : (self.update n f).count = self.count := by
    simp only [update]
    split <;> rfl
  have hvals : (vals (self.runs.map fun r => (r.1, g r))).length = (vals self.runs).length := by
    simp only [vals, List.length_flatMap, List.map_map]
    exact congrArg List.sum (List.map_congr_left fun r hm => hlen r hm)
  refine ⟨hr ▸ h.canonical.map hlen, ?_, ?_⟩
  case refine_1 => rw [hcount, h.count_eq, hr, hvals]
  case refine_2 =>
    rw [hr]
    simp only [List.mem_map, forall_exists_index, and_imp, forall_apply_eq_imp_iff₂]
    exact fun r hm => hlen r hm ▸ h.bound r hm

@[simp]
theorem updateAll_lookup (m : Nat) : (self.updateAll f).lookup m = (self.lookup m).map f := by
  have hl : lastLE (self.updateAll f).runs m = (lastLE self.runs m).map fun r => (r.1, r.2.map f) := by
    simp only [lastLE, updateAll, List.filter_map, List.getLast?_map]
    rfl
  simp only [lookup, hl]
  cases lastLE self.runs m
  case none => rfl
  case some r => exact at?_map

theorem updateAll_wf (h : self.WF) : (self.updateAll f).WF := by
  refine ⟨h.canonical.map (by simp), ?_, ?_⟩
  case refine_1 =>
    show self.count = _
    simp [h.count_eq, updateAll, vals, List.length_flatMap, Function.comp_def]
  case refine_2 =>
    simp only [updateAll, List.mem_map, forall_exists_index, and_imp, forall_apply_eq_imp_iff₂,
      List.length_map]
    exact h.bound

end Update

-- The enumerations of a set list its pages by ascending index.

theorem iterRange_eq (h : self.WF) (lo up : Nat) :
    self.iterRange lo up =
    (List.range' lo (up - lo)).filterMap fun n => (self.lookup n).map (n, ·) := by
  have he : self.iterRange lo up = entries self.runs lo up := by
    rw [← entries_eq_flatMap h.canonical]
    exact List.flatMap_congr fun r _ => entries_singleton lo up
  rw [he, entries]
  exact List.filterMap_congr fun n _ => by rw [lookup_eq_den h]

theorem iter_eq (h : self.WF) (bound : Nat) (hb : ∀ n, self.lookup n ≠ none → n < bound) :
    self.iter = (List.range bound).filterMap self.lookup := by
  rw [iter, vals_eq_entries h.canonical fun r hm => h.run_le hm bound hb, entries,
    List.map_filterMap, List.range_eq_range']
  refine List.filterMap_congr fun n _ => ?_
  rw [lookup_eq_den h, Option.map_map]
  exact Option.map_id_apply

-- An assignment to a resident page exchanges it and keeps all others.
theorem update_iter {f : ResidentPage → ResidentPage} {page : ResidentPage} (h : self.WF)
    (hp : self.lookup n = some page) :
    ∃ rest, self.iter.Perm (page :: rest) ∧ (self.update n f).iter.Perm (f page :: rest) := by
  have hb : ∀ m, self.lookup m ≠ none → m < Usize.max := fun m hm => by
    have ⟨a, ha⟩ := Option.ne_none_iff_exists'.mp hm
    rw [lookup_eq_den h] at ha
    have ⟨r, hr, ha⟩ := den_mem ha
    have := at?_bounds ha
    have := h.bound r hr
    omega
  have hu := update_lookup (f := f) (n := n) h
  have hb' : ∀ m, (self.update n f).lookup m ≠ none → m < Usize.max := fun m hm => by
    refine hb m fun hn => hm ?_
    rw [hu, hn]
    simp
  have hn := hb n (by simp [hp])
  have hsplit : List.range Usize.max =
      List.range' 0 n ++ n :: List.range' (n + 1) (Usize.max - (n + 1)) := by
    rw [List.range_eq_range', ← List.range'_succ, ← Nat.sub_zero Usize.max,
      range'_split (Nat.zero_le n) hn.le]
    congr 2
    omega
  have hrest : ∀ xs : List Nat, n ∉ xs →
      xs.filterMap (self.update n f).lookup = xs.filterMap self.lookup := fun xs hx =>
    List.filterMap_congr fun m hm => by
      rw [hu, if_neg]
      exact fun he => hx (he ▸ hm)
  refine ⟨(List.range' 0 n).filterMap self.lookup ++
    (List.range' (n + 1) (Usize.max - (n + 1))).filterMap self.lookup, ?_, ?_⟩
  case refine_1 =>
    rw [iter_eq h Usize.max hb, hsplit, List.filterMap_append, List.filterMap_cons, hp]
    exact List.perm_middle
  case refine_2 =>
    rw [iter_eq (update_wf h) Usize.max hb', hsplit, List.filterMap_append, List.filterMap_cons, hu, hp,
      hrest _ (by simp), hrest _ (by simp)]
    simp

end WllOs.ResidentSet
