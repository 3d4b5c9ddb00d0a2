import Mathlib

-- Stacks that have room for some number of items. The top is the head of the list.
namespace BoundedStack

variable {α : Type*} {capacity count : Nat} {items stack : List α}

def push (capacity : Nat) (item : α) (stack : List α) : Bool × List α :=
  if stack.length = capacity then (false, stack) else (true, item :: stack)

-- Pushes what there is room for, and returns the others.
def pushAll (capacity : Nat) : (items stack : List α) → List α × List α
  | [],            stack => ([], stack)
  | item :: items, stack =>
    match push capacity item stack with
    | (true, stack)  => pushAll capacity items stack
    | (false, stack) =>
      let (back, stack) := pushAll capacity items stack
      (item :: back, stack)

-- Pushes an item. If there is no room, `count` items make some, and are returned.
def pushOrFlush (capacity count : Nat) (item : α) (stack : List α) : List α × List α :=
  match push capacity item stack with
  | (true, stack)  => ([], stack)
  | (false, stack) => (stack.take count, (push capacity item (stack.drop count)).2)

-- A stack that has taken some items and given others back.
structure Exchanges (capacity : Nat) (items stack back stack' : List α) : Prop where
  perm : (back ++ stack').Perm (items ++ stack)
  room : stack'.length ≤ capacity

theorem push_cases (capacity : Nat) (item : α) (stack : List α) :
    push capacity item stack = (false, stack) ∧ stack.length = capacity ∨
    push capacity item stack = (true, item :: stack) ∧ stack.length ≠ capacity := by
  rw [push]
  split
  case isTrue h  => exact .inl ⟨rfl, h⟩
  case isFalse h => exact .inr ⟨rfl, h⟩

theorem pushAll_exchanges (items : List α) (h : stack.length ≤ capacity) :
    Exchanges capacity items stack (pushAll capacity items stack).1 (pushAll capacity items stack).2 := by
  induction items generalizing stack
  case nil => exact ⟨.refl _, h⟩
  case cons item items hi =>
    rcases push_cases capacity item stack with ⟨hp, -⟩ | ⟨hp, hne⟩
    case inl =>
      have hrest := hi h
      simp only [pushAll, hp]
      exact ⟨hrest.perm.cons item, hrest.room⟩
    case inr =>
      have hrest := @hi (item :: stack) (Nat.lt_of_le_of_ne h hne)
      simp only [pushAll, hp]
      exact ⟨hrest.perm.trans List.perm_middle, hrest.room⟩

theorem pushOrFlush_exchanges (item : α) (h : stack.length ≤ capacity) (hc : 0 < count) (hle : count ≤ capacity) :
    Exchanges capacity [item] stack (pushOrFlush capacity count item stack).1
      (pushOrFlush capacity count item stack).2 := by
  rcases push_cases capacity item stack with ⟨hp, hfull⟩ | ⟨hp, hne⟩
  case inl =>
    have hroom : (stack.drop count).length < capacity := by
      rw [List.length_drop, hfull]
      omega
    have hpush : push capacity item (stack.drop count) = (true, item :: stack.drop count) :=
      if_neg (Nat.ne_of_lt hroom)
    simp only [pushOrFlush, hp, hpush]
    refine ⟨List.perm_middle.trans ?_, hroom⟩
    rw [List.take_append_drop, List.singleton_append]
  case inr =>
    simp only [pushOrFlush, hp]
    exact ⟨.refl _, Nat.lt_of_le_of_ne h hne⟩

end BoundedStack
