import Mathlib

-- Graphs where each node has at most one successor: cycles, and the search for a node along the successors.
namespace Successor

open Relation

variable {α : Type*} {next next' : α → Option α} {a b c target : α}

abbrev Edge (next : α → Option α) (a b : α) : Prop :=
  next a = some b

abbrev Path (next : α → Option α) : α → α → Prop :=
  ReflTransGen (Edge next)

def Acyclic (next : α → Option α) : Prop :=
  ∀ a, ¬ TransGen (Edge next) a a

theorem Acyclic.mono (h : Acyclic next) (hs : ∀ a b, next' a = some b → next a = some b) : Acyclic next' :=
  fun a hc => h a (TransGen.mono hs _ _ hc)

theorem Acyclic.empty : Acyclic fun _ : α => none :=
  fun _ h => have ⟨_, h, _⟩ := TransGen.head'_iff.mp h; nomatch h

-- Whether the target is among the first nodes of the path from a node.
def reaches [DecidableEq α] (next : α → Option α) (target : α) : Nat → α → Bool
  | 0, _     => false
  | n + 1, a =>
    a = target || match next a with
      | some b => reaches next target n b
      | none   => false

section

variable [DecidableEq α]

theorem path_of_reaches {n : Nat} (h : reaches next target n a) : Path next a target := by
  induction n generalizing a
  case zero => cases h
  case succ n hi =>
    simp only [reaches, Bool.or_eq_true, decide_eq_true_eq] at h
    cases h
    case inl h => exact h ▸ .refl
    case inr h =>
      split at h
      case h_1 b hb => exact .head hb (hi h)
      case h_2 => cases h

-- The nodes of a path without cycles are different ones, so the search needs no more steps than there are nodes.
theorem exists_support (h : Acyclic next) (hp : Path next a target) :
    ∃ nodes : List α, nodes.Nodup ∧ (∀ b ∈ nodes, (next b).isSome ∧ Path next a b) ∧
      ∀ n, nodes.length < n → reaches next target n a := by
  induction hp using ReflTransGen.head_induction_on
  case refl =>
    refine ⟨[], .nil, nofun, fun n hn => ?_⟩
    cases n
    case zero => cases hn
    case succ => simp [reaches]
  case head a b hab hbt hi =>
    have ⟨nodes, hd, hn, hr⟩ := hi
    refine ⟨a :: nodes, List.nodup_cons.mpr ⟨fun ha => ?_, hd⟩, ?_, fun n hlt => ?_⟩
    case refine_1 => exact h a (.head' hab (hn a ha).right)
    case refine_2 =>
      refine List.forall_mem_cons.mpr ⟨⟨by simp [hab], .refl⟩, fun c hc => ⟨(hn c hc).left, .head hab (hn c hc).right⟩⟩
    case refine_3 =>
      cases n
      case zero => cases hlt
      case succ n =>
        have := hr n (by simpa using hlt)
        simp [reaches, hab, this]

theorem reaches_of_path {support : List α} (h : Acyclic next) (hs : ∀ a, (next a).isSome → a ∈ support)
    (hp : Path next a target) : reaches next target (support.length + 1) a := by
  have ⟨nodes, hd, hn, hr⟩ := exists_support h hp
  have hl := (List.subperm_of_subset hd fun b hb => hs b (hn b hb).left).length_le
  exact hr _ (by omega)

-- The part of a path up to its first visit of a node does not depend on the successor of that node.
theorem Path.of_update {x : Option α} (hp : Path (Function.update next b x) a b) : Path next a b := by
  induction hp using ReflTransGen.head_induction_on
  case refl => exact .refl
  case head a c hac _ hi =>
    by_cases ha : a = b
    case pos => exact ha ▸ .refl
    case neg => exact .head (by rwa [Edge, Function.update_of_ne ha] at hac) hi

theorem Path.update {x : Option α} (hp : Path next a b) : Path (Function.update next b x) a b := by
  refine Path.of_update (x := next b) ?_
  rwa [Function.update_idem, Function.update_eq_self]

theorem trans_update {x : Option α} (h : TransGen (Edge (Function.update next b x)) a c) :
    TransGen (Edge next) a c ∨ Path next a b ∧ ∃ d, x = some d ∧ Path (Function.update next b x) d c := by
  induction h using TransGen.head_induction_on
  case single a h =>
    by_cases ha : a = b
    case pos => subst ha; exact .inr ⟨.refl, c, by simpa [Edge] using h, .refl⟩
    case neg => exact .inl (.single (by rwa [Edge, Function.update_of_ne ha] at h))
  case head a d h hd hi =>
    by_cases ha : a = b
    case pos => subst ha; exact .inr ⟨.refl, d, by simpa [Edge] using h, hd.to_reflTransGen⟩
    case neg =>
      rw [Edge, Function.update_of_ne ha] at h
      exact hi.imp (.head h) fun ⟨hp, hx⟩ => ⟨.head h hp, hx⟩

-- A new successor closes a cycle only if there is a path back from it.
theorem Acyclic.update (h : Acyclic next) (hn : ¬ Path next c b) : Acyclic (Function.update next b (some c)) := by
  intro a ha
  cases trans_update ha
  case inl ha => exact h a ha
  case inr ha =>
    have ⟨hp, d, hd, hda⟩ := ha
    cases hd
    exact hn (Path.of_update (hda.trans hp.update))

theorem edge_of_erase (h : Function.update next a none b = some c) : b ≠ a ∧ next b = some c := by
  by_cases hb : b = a
  case pos => subst hb; simp at h
  case neg => exact ⟨hb, by rwa [Function.update_of_ne hb] at h⟩

theorem Acyclic.erase (h : Acyclic next) : Acyclic (Function.update next a none) :=
  h.mono fun _ _ h => (edge_of_erase h).right

theorem Path.of_erase (h : Path (Function.update next a none) b c) : Path next b c :=
  ReflTransGen.mono (fun _ _ h => (edge_of_erase h).right) _ _ h

end

end Successor

-- Elements that lead to each other. Not every element has a successor.
variable {α : Type} {step step' : α → Option α} {a b c : α} {as bs : List α}

-- The elements that are passed from an element to another one. The last one is not among them.
inductive Chain (step : α → Option α) : α → List α → α → Prop
  | nil {a : α} : Chain step a [] a
  | cons {a b c : α} {as : List α} : step a = some b → Chain step b as c → Chain step a (a :: as) c

namespace Chain

theorem mono (hm : ∀ a b, step a = some b → step' a = some b) (h : Chain step a as b) : Chain step' a as b := by
  induction h
  case nil => exact .nil
  case cons hs _ hi => exact .cons (hm _ _ hs) hi

-- Of two chains from an element, the longer one goes on from the end of the shorter one.
theorem split (h : Chain step a as b) (h' : Chain step a bs c) (hl : as.length ≤ bs.length) :
    ∃ rest, bs = as ++ rest ∧ Chain step b rest c := by
  induction h generalizing bs
  case nil => exact ⟨bs, rfl, h'⟩
  case cons hs _ hi =>
    cases h'
    case nil => exact absurd hl (Nat.not_succ_le_zero _)
    case cons hs' h' =>
      cases hs.symm.trans hs'
      have ⟨rest, he, hc⟩ := hi h' (Nat.le_of_succ_le_succ hl)
      exact ⟨rest, congrArg _ he, hc⟩

-- A chain that ends is the longest one.
theorem length_le (h : Chain step a as b) (hb : step b = none) (h' : Chain step a bs c) : bs.length ≤ as.length := by
  by_contra hlt
  have ⟨rest, he, hc⟩ := h.split h' (Nat.le_of_not_le hlt)
  cases hc
  case nil => exact hlt (by simp [he])
  case cons hs _ => cases hb.symm.trans hs

theorem unique (h : Chain step a as b) (hb : step b = none) (h' : Chain step a bs c) (hc : step c = none) :
    as = bs ∧ b = c := by
  have ⟨rest, he, hr⟩ := h.split h' (h'.length_le hc h)
  cases hr
  case nil => exact ⟨(List.append_nil as).symm.trans he.symm, rfl⟩
  case cons hs _ => cases hb.symm.trans hs

end Chain
