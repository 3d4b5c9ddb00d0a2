import Mathlib

-- Sets of positions as lists of spans. In a sorted list there is a gap between any two spans.
structure Span where
  start : Nat
  stop : Nat
  nonempty : start < stop

namespace Span

variable {span new completed : Span} {spans : List Span} {pos len : Nat}

def Mem (span : Span) (pos : Nat) : Prop :=
  span.start ≤ pos ∧ pos < span.stop

def Covers (spans : List Span) (pos : Nat) : Prop :=
  ∃ span ∈ spans, span.Mem pos

def Sorted (spans : List Span) : Prop :=
  spans.Pairwise fun left right => left.stop < right.start

instance : Decidable (span.Mem pos) :=
  inferInstanceAs (Decidable (_ ∧ _))

instance : Decidable (Covers spans pos) :=
  inferInstanceAs (Decidable (∃ _ ∈ _, _))

def ofBounds (start stop : Nat) : Option Span :=
  if h : start < stop then some ⟨start, stop, h⟩ else none

-- The span that reaches over both.
def hull (left right : Span) : Span where
  start := min left.start right.start
  stop := max left.stop right.stop
  nonempty := by
    have := left.nonempty
    omega

-- Puts a span into a sorted list. It takes in the spans that it meets.
def insert (new : Span) : List Span → List Span
  | []            => [new]
  | span :: spans =>
    if new.stop < span.start then new :: span :: spans
    else if new.start > span.stop then span :: insert new spans
    else insert (new.hull span) spans

def clip (len : Nat) (spans : List Span) : List Span :=
  spans.filterMap fun span => ofBounds span.start (min span.stop len)

-- What a span has on both sides of another one.
def without (completed span : Span) : List Span :=
  if span.stop ≤ completed.start ∨ span.start ≥ completed.stop then [span]
  else (ofBounds span.start completed.start).toList ++ (ofBounds completed.stop span.stop).toList

-- The positions of the list that are not in a span.
def subtract (completed : Span) (spans : List Span) : List Span :=
  spans.flatMap (without completed)

theorem mem_ofBounds {start stop : Nat} : span ∈ ofBounds start stop ↔ span.start = start ∧ span.stop = stop := by
  simp only [ofBounds]
  have := span.nonempty
  constructor
  case mp =>
    intro h
    split at h
    case isTrue =>
      cases h
      exact ⟨rfl, rfl⟩
    case isFalse => cases h
  case mpr =>
    intro ⟨h, h'⟩
    subst h h'
    simp [span.nonempty]

@[simp]
theorem covers_nil : ¬Covers [] pos := by
  simp [Covers]

@[simp]
theorem covers_cons : Covers (span :: spans) pos ↔ span.Mem pos ∨ Covers spans pos := by
  simp [Covers]

theorem covers_append {left right : List Span} :
    Covers (left ++ right) pos ↔ Covers left pos ∨ Covers right pos := by
  simp only [Covers, List.mem_append, or_and_right, exists_or]

theorem covers_ofBounds {start stop : Nat} : Covers (ofBounds start stop).toList pos ↔ start ≤ pos ∧ pos < stop := by
  simp only [ofBounds]
  split
  case isTrue => simp [Mem]
  case isFalse =>
    simp only [Option.toList_none, covers_nil, false_iff]
    omega

-- Two spans that meet have all positions of their hull.
theorem mem_hull (h : ¬new.stop < span.start) (h' : ¬new.start > span.stop) :
    (new.hull span).Mem pos ↔ new.Mem pos ∨ span.Mem pos := by
  have := new.nonempty
  have := span.nonempty
  simp only [Mem, hull]
  omega

theorem covers_insert : Covers (insert new spans) pos ↔ new.Mem pos ∨ Covers spans pos := by
  induction spans generalizing new
  case nil => simp [insert]
  case cons span spans hi =>
    simp only [insert]
    split
    case isTrue => simp
    case isFalse h =>
      split
      case isTrue => simp [hi, or_left_comm]
      case isFalse h' => simp [hi, mem_hull h h', or_assoc]

theorem covers_clip : Covers (clip len spans) pos ↔ Covers spans pos ∧ pos < len := by
  induction spans
  case nil => simp [clip]
  case cons span spans hi =>
    have hc : clip len (span :: spans) = (ofBounds span.start (min span.stop len)).toList ++ clip len spans := by
      simp only [clip, List.filterMap_cons]
      cases ofBounds span.start (min span.stop len) <;> rfl
    rw [hc, covers_append, covers_ofBounds, hi, covers_cons]
    simp only [Mem]
    grind

theorem covers_without : Covers (without completed span) pos ↔ span.Mem pos ∧ ¬completed.Mem pos := by
  have := span.nonempty
  have := completed.nonempty
  simp only [without, Mem]
  split
  case isTrue =>
    simp only [covers_cons, covers_nil, Mem, or_false]
    omega
  case isFalse =>
    simp only [covers_append, covers_ofBounds]
    omega

theorem covers_subtract : Covers (subtract completed spans) pos ↔ Covers spans pos ∧ ¬completed.Mem pos := by
  induction spans
  case nil => simp [subtract]
  case cons span spans hi =>
    simp only [subtract, List.flatMap_cons] at hi ⊢
    rw [covers_append, hi, covers_cons, covers_without, or_and_right]

theorem bounds_of_mem_without (h : new ∈ without completed span) : span.start ≤ new.start ∧ new.stop ≤ span.stop := by
  have := new.nonempty
  have := completed.nonempty
  simp only [without] at h
  split at h
  case isTrue =>
    simp only [List.mem_singleton] at h
    simp [h]
  case isFalse =>
    obtain h | h := List.mem_append.mp h
    case inl =>
      have := mem_ofBounds.mp (Option.mem_toList.mp h)
      omega
    case inr =>
      have := mem_ofBounds.mp (Option.mem_toList.mp h)
      omega

theorem sorted_cons : Sorted (span :: spans) ↔ (∀ later ∈ spans, span.stop < later.start) ∧ Sorted spans :=
  List.pairwise_cons

-- The positions before the first span are not in the list.
theorem not_covers_of_lt (h : Sorted (span :: spans)) (hp : pos < span.start) : ¬Covers (span :: spans) pos := by
  have ⟨hs, _⟩ := sorted_cons.mp h
  have := span.nonempty
  intro ⟨later, hl, hm, _⟩
  cases hl
  case head => omega
  case tail hl =>
    have := hs later hl
    omega

-- What comes after some position still does so when a span is put in that comes after it.
theorem lt_of_mem_insert {bound : Nat} (hn : bound < new.start) (hs : ∀ span ∈ spans, bound < span.start) :
    ∀ span ∈ insert new spans, bound < span.start := by
  induction spans generalizing new
  case nil => simpa [insert] using hn
  case cons span spans hi =>
    have ⟨h, hs'⟩ := List.forall_mem_cons.mp hs
    simp only [insert]
    split
    case isTrue => exact List.forall_mem_cons.mpr ⟨hn, hs⟩
    case isFalse =>
      split
      case isTrue => exact List.forall_mem_cons.mpr ⟨h, hi hn hs'⟩
      case isFalse =>
        apply hi _ hs'
        simp only [hull]
        omega

theorem sorted_insert (h : Sorted spans) : Sorted (insert new spans) := by
  induction spans generalizing new
  case nil => exact List.pairwise_singleton _ _
  case cons span spans hi =>
    have ⟨hs, h'⟩ := sorted_cons.mp h
    have := span.nonempty
    simp only [insert]
    split
    case isTrue hn =>
      refine sorted_cons.mpr ⟨List.forall_mem_cons.mpr ⟨hn, ?_⟩, h⟩
      intro later hl
      have := hs later hl
      omega
    case isFalse =>
      split
      case isTrue hn => exact sorted_cons.mpr ⟨lt_of_mem_insert hn hs, hi h'⟩
      case isFalse => exact hi h'

theorem sorted_clip (h : Sorted spans) : Sorted (clip len spans) := by
  apply h.filterMap
  intro left right hlr left' hl right' hr
  have ⟨_, hl⟩ := mem_ofBounds.mp hl
  have ⟨hr, _⟩ := mem_ofBounds.mp hr
  omega

theorem sorted_without : Sorted (without completed span) := by
  have hc := completed.nonempty
  simp only [without]
  split
  case isTrue => exact List.pairwise_singleton _ _
  case isFalse =>
    apply List.pairwise_append.mpr
    refine ⟨?_, ?_, ?_⟩
    · cases ofBounds span.start completed.start <;> simp
    · cases ofBounds completed.stop span.stop <;> simp
    · intro left hl right hr
      have ⟨_, hl⟩ := mem_ofBounds.mp (Option.mem_toList.mp hl)
      have ⟨hr, _⟩ := mem_ofBounds.mp (Option.mem_toList.mp hr)
      omega

theorem sorted_subtract (h : Sorted spans) : Sorted (subtract completed spans) := by
  apply List.pairwise_flatMap.mpr
  constructor
  case left =>
    intro span _
    exact sorted_without
  case right =>
    apply h.imp
    intro left right hlr new hn new' hn'
    have ⟨_, hl⟩ := bounds_of_mem_without hn
    have ⟨hr, _⟩ := bounds_of_mem_without hn'
    omega

-- A sorted list has a gap right behind its first span.
theorem not_covers_stop (h : Sorted (span :: spans)) : ¬Covers (span :: spans) span.stop := by
  have ⟨hs, _⟩ := sorted_cons.mp h
  intro hc
  cases covers_cons.mp hc
  case inl hm => exact absurd hm.right (lt_irrefl _)
  case inr hc =>
    have ⟨later, hl, hm, _⟩ := hc
    exact absurd hm (not_le.mpr (hs later hl))

theorem covers_tail (h : Sorted (span :: spans)) :
    Covers spans pos ↔ Covers (span :: spans) pos ∧ span.stop ≤ pos := by
  have ⟨hs, _⟩ := sorted_cons.mp h
  constructor
  case mp =>
    intro ⟨later, hl, hm⟩
    exact ⟨⟨later, .tail _ hl, hm⟩, (hs later hl).le.trans hm.left⟩
  case mpr =>
    intro ⟨hc, hp⟩
    cases covers_cons.mp hc
    case inl hm => exact absurd hm.right (not_lt.mpr hp)
    case inr hc => exact hc

theorem start_covered : Covers (span :: spans) span.start :=
  covers_cons.mpr (.inl ⟨le_rfl, span.nonempty⟩)

theorem ext_bounds {left right : Span} (hs : left.start = right.start) (ht : left.stop = right.stop) :
    left = right := by
  cases left
  cases right
  cases hs
  cases ht
  rfl

-- Sorted lists with the same positions begin with the same span.
theorem start_le_of_covers {span' : Span} (h : Sorted (span :: spans))
    (hc : Covers (span :: spans) span'.start) : span.start ≤ span'.start :=
  not_lt.mp fun hlt => not_covers_of_lt h hlt hc

theorem stop_le_of_covers {span' : Span} {spans' : List Span} (h : Sorted (span :: spans))
    (hs : span'.start ≤ span.start) (hc : ∀ pos, Covers (span' :: spans') pos → Covers (span :: spans) pos) :
    span'.stop ≤ span.stop := by
  by_contra hlt
  have hm : span'.Mem span.stop := ⟨hs.trans span.nonempty.le, not_le.mp hlt⟩
  exact not_covers_stop h (hc _ (covers_cons.mpr (.inl hm)))

-- A set of positions has one sorted list only.
theorem eq_of_covers {spans' : List Span} (h : Sorted spans) (h' : Sorted spans')
    (hc : ∀ pos, Covers spans pos ↔ Covers spans' pos) : spans = spans' := by
  induction spans generalizing spans'
  case nil =>
    cases spans'
    case nil => rfl
    case cons span' spans' => exact absurd ((hc _).mpr start_covered) covers_nil
  case cons span spans hi =>
    cases spans'
    case nil => exact absurd ((hc _).mp start_covered) covers_nil
    case cons span' spans' =>
      have hstart : span.start = span'.start :=
        le_antisymm (start_le_of_covers h ((hc _).mpr start_covered))
          (start_le_of_covers h' ((hc _).mp start_covered))
      have hstop : span.stop = span'.stop :=
        le_antisymm (stop_le_of_covers h' hstart.le fun pos => (hc pos).mp)
          (stop_le_of_covers h hstart.ge fun pos => (hc pos).mpr)
      have htail : spans = spans' := by
        apply hi (sorted_cons.mp h).right (sorted_cons.mp h').right
        intro pos
        rw [covers_tail h, covers_tail h', hc, hstop]
      rw [ext_bounds hstart hstop, htail]

end Span
