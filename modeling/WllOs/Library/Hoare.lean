import Mathlib

-- Invariants of programs that have a state and may fail.
namespace Hoare

open Std.Do

variable {ε σ α : Type} {P : σ → Prop} {program : ExceptT ε (StateM σ) α} {s : σ}

-- A program keeps an invariant, whether it fails or not.
abbrev Keeps (P : σ → Prop) (program : ExceptT ε (StateM σ) α) : Prop :=
  ⦃fun s => ⌜P s⌝⦄ program ⦃post⟨fun _ s => ⌜P s⌝, fun _ s => ⌜P s⌝⟩⦄

theorem post_of_triple {Q : α → σ → Prop} {E : ε → σ → Prop}
    (h : ⦃fun s => ⌜P s⌝⦄ program ⦃post⟨fun a s => ⌜Q a s⌝, fun e s => ⌜E e s⌝⟩⦄) (hs : P s) :
    match Id.run (StateT.run (ExceptT.run program) s) with
    | (.ok a, s')    => Q a s'
    | (.error e, s') => E e s' := by
  have hp := h s hs
  simp only [wp, PredTrans.apply_pushExcept, PredTrans.apply_pushArg] at hp
  cases hr : Id.run (StateT.run (ExceptT.run program) s) with
  | mk result s' => cases result <;> simp_all

theorem ok_of_triple {Q : α → σ → Prop} {E : ε → σ → Prop} {a : α} {s' : σ}
    (h : ⦃fun s => ⌜P s⌝⦄ program ⦃post⟨fun a s => ⌜Q a s⌝, fun e s => ⌜E e s⌝⟩⦄) (hs : P s)
    (hr : Id.run (StateT.run (ExceptT.run program) s) = (.ok a, s')) : Q a s' := by
  have hp := post_of_triple h hs
  rwa [hr] at hp

theorem error_of_triple {Q : α → σ → Prop} {E : ε → σ → Prop} {e : ε} {s' : σ}
    (h : ⦃fun s => ⌜P s⌝⦄ program ⦃post⟨fun a s => ⌜Q a s⌝, fun e s => ⌜E e s⌝⟩⦄) (hs : P s)
    (hr : Id.run (StateT.run (ExceptT.run program) s) = (.error e, s')) : E e s' := by
  have hp := post_of_triple h hs
  rwa [hr] at hp

-- A program establishes the same of its state whether it fails or not.
theorem run_of_triple {R : σ → Prop}
    (h : ⦃fun s => ⌜P s⌝⦄ program ⦃post⟨fun _ s => ⌜R s⌝, fun _ s => ⌜R s⌝⟩⦄) (hs : P s) :
    R (Id.run (StateT.run (ExceptT.run program) s)).2 := by
  have hp := post_of_triple h hs
  split at hp
  case h_1 he => rwa [he]
  case h_2 he => rwa [he]

theorem Keeps.run (h : Keeps P program) (hs : P s) : P (Id.run (StateT.run (ExceptT.run program) s)).2 :=
  run_of_triple h hs

end Hoare
