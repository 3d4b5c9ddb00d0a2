import Mathlib

-- Programs that may fail: what a result says about the steps before it.
namespace Fallible

variable {ε α β : Type} {x : Except ε α} {f : α → Except ε β} {b : β}

theorem bind_ok (h : (x >>= f) = .ok b) : ∃ a, x = .ok a ∧ f a = .ok b := by
  cases x
  case error => cases h
  case ok a => exact ⟨a, rfl, h⟩

theorem guard_ok {c : Prop} [Decidable c] {e : ε} {y : Except ε β} (h : (if c then .error e else y) = .ok b) :
    ¬c ∧ y = .ok b := by
  split at h
  case isTrue => cases h
  case isFalse hc => exact ⟨hc, h⟩

theorem ite_ok {c : Prop} [Decidable c] {y z : Except ε β} (h : (if c then y else z) = .ok b) :
    c ∧ y = .ok b ∨ ¬c ∧ z = .ok b := by
  split at h
  case isTrue hc => exact .inl ⟨hc, h⟩
  case isFalse hc => exact .inr ⟨hc, h⟩

-- A step that is left out under some condition.
theorem when_ok {c : Prop} [Decidable c] {x : Except ε Unit} {f : Unit → Except ε β}
    (h : (if c then x >>= f else f ()) = .ok b) : (c → x = .ok ()) ∧ f () = .ok b := by
  cases ite_ok h
  case inl h =>
    have ⟨_, hx, h⟩ := bind_ok h.2
    exact ⟨fun _ => hx, h⟩
  case inr h => exact ⟨fun hc => absurd hc h.1, h.2⟩

theorem elim_ok {o : Option α} {e : ε} {a : α} (h : o.elim (.error e) .ok = Except.ok a) : o = some a := by
  cases o
  case none => cases h
  case some => cases h; rfl

-- A list that is read element by element, where some elements cannot be read.
theorem mapM_guarded_ok {p : α → Prop} [DecidablePred p] {g : α → β} {e : ε} {xs : List α} {ys : List β}
    (h : (xs.mapM fun x => if p x then Except.ok (g x) else .error e) = .ok ys) : ys = xs.map g := by
  induction xs generalizing ys
  case nil => cases h; rfl
  case cons x xs hi =>
    rw [List.mapM_cons] at h
    have ⟨y, hx, h⟩ := bind_ok h
    have ⟨zs, hxs, h⟩ := bind_ok h
    cases h
    cases ite_ok hx
    case inl hx =>
      cases hx.2
      rw [List.map_cons, hi hxs]
    case inr hx => cases hx.2

end Fallible

-- Programs whose calls may fail. The call that fails leaves the state as it is, and what has been done before it stays
-- done.
namespace Faults

variable {ε σ α β : Type}

-- What a run leaves, with the number of calls that there have been.
structure Outcome (ε σ α : Type) where
  result : Except ε α
  state : σ
  calls : Nat

-- The faults tell what the call of each number fails with.
def Program (ε σ α : Type) :=
  (faults : Nat → Option ε) → σ → Nat → Outcome ε σ α

namespace Program

variable {faults : Nat → Option ε} {s s' : σ} {n m : Nat} {e : ε} {a : α} {b : β}

instance : Monad (Program ε σ) where
  pure a _ s n := ⟨.ok a, s, n⟩
  bind x f faults s n :=
    match x faults s n with
    | ⟨.ok a, s, n⟩    => f a faults s n
    | ⟨.error e, s, n⟩ => ⟨.error e, s, n⟩

-- A call that takes effect, or fails.
def call (effect : σ → σ) : Program ε σ Unit :=
  fun faults s n =>
    match faults n with
    | none   => ⟨.ok (), effect s, n + 1⟩
    | some e => ⟨.error e, s, n + 1⟩

def get : Program ε σ σ :=
  fun _ s n => ⟨.ok s, s, n⟩

-- A change that cannot fail.
def modify (effect : σ → σ) : Program ε σ Unit :=
  fun _ s n => ⟨.ok (), effect s, n⟩

-- A check of the program itself.
def lift (result : Except ε α) : Program ε σ α :=
  fun _ s n => ⟨result, s, n⟩

def when (c : Prop) [Decidable c] (x : Program ε σ Unit) : Program ε σ Unit :=
  if c then x else pure ()

-- Goes on after an error.
def attempt (x : Program ε σ α) : Program ε σ (Except ε α) :=
  fun faults s n => ⟨.ok (x faults s n).result, (x faults s n).state, (x faults s n).calls⟩

theorem pure_apply : (pure a : Program ε σ α) faults s n = ⟨.ok a, s, n⟩ := rfl

theorem ok_bind {f : α → Program ε σ β} : ((pure a : Program ε σ α) >>= f) = f a := rfl

theorem lift_ok_bind {f : α → Program ε σ β} : (lift (.ok a) >>= f) = f a := rfl

theorem lift_error_bind {f : α → Program ε σ β} : (lift (.error e) >>= f) faults s n = ⟨.error e, s, n⟩ := rfl

theorem get_bind {f : σ → Program ε σ β} : (get >>= f) faults s n = f s faults s n := rfl

theorem modify_bind {effect : σ → σ} {f : Unit → Program ε σ β} :
    (modify effect >>= f) faults s n = f () faults (effect s) n := rfl

theorem attempt_bind {x : Program ε σ α} {f : Except ε α → Program ε σ β} {result : Except ε α}
    (h : x faults s n = ⟨result, s', m⟩) : (attempt x >>= f) faults s n = f result faults s' m := by
  change f (x faults s n).result faults (x faults s n).state (x faults s n).calls = _
  rw [h]

theorem when_pos {c : Prop} [Decidable c] {x : Program ε σ Unit} (h : c) : when c x = x :=
  if_pos h

theorem when_neg {c : Prop} [Decidable c] {x : Program ε σ Unit} (h : ¬c) : when c x = pure () :=
  if_neg h

theorem call_none {effect : σ → σ} (h : faults n = none) : call effect faults s n = ⟨.ok (), effect s, n + 1⟩ := by
  rw [call, h]

theorem call_some {effect : σ → σ} (h : faults n = some e) : call effect faults s n = ⟨.error e, s, n + 1⟩ := by
  rw [call, h]

theorem bind_of_ok {x : Program ε σ α} {f : α → Program ε σ β} (h : x faults s n = ⟨.ok a, s', m⟩) :
    (x >>= f) faults s n = f a faults s' m := by
  change (match x faults s n with | ⟨.ok a, s, n⟩ => f a faults s n | ⟨.error e, s, n⟩ => ⟨.error e, s, n⟩) = _
  rw [h]

theorem bind_of_error {x : Program ε σ α} {f : α → Program ε σ β} (h : x faults s n = ⟨.error e, s', m⟩) :
    (x >>= f) faults s n = ⟨.error e, s', m⟩ := by
  change (match x faults s n with | ⟨.ok a, s, n⟩ => f a faults s n | ⟨.error e, s, n⟩ => ⟨.error e, s, n⟩) = _
  rw [h]

-- A program that fails has failed in its first step, or later.
theorem bind_error {x : Program ε σ α} {f : α → Program ε σ β} (h : (x >>= f) faults s n = ⟨.error e, s', m⟩) :
    x faults s n = ⟨.error e, s', m⟩ ∨ ∃ a t k, x faults s n = ⟨.ok a, t, k⟩ ∧ f a faults t k = ⟨.error e, s', m⟩ := by
  obtain ⟨result, t, k, hx⟩ : ∃ result t k, x faults s n = ⟨result, t, k⟩ := ⟨_, _, _, rfl⟩
  cases result
  case error e' =>
    cases (bind_of_error hx).symm.trans h
    exact .inl hx
  case ok a => exact .inr ⟨a, t, k, hx, (bind_of_ok hx).symm.trans h⟩

theorem bind_ok {x : Program ε σ α} {f : α → Program ε σ β} (h : (x >>= f) faults s n = ⟨.ok b, s', m⟩) :
    ∃ a t k, x faults s n = ⟨.ok a, t, k⟩ ∧ f a faults t k = ⟨.ok b, s', m⟩ := by
  obtain ⟨result, t, k, hx⟩ : ∃ result t k, x faults s n = ⟨result, t, k⟩ := ⟨_, _, _, rfl⟩
  cases result
  case error e' => cases (bind_of_error hx).symm.trans h
  case ok a => exact ⟨a, t, k, hx, (bind_of_ok hx).symm.trans h⟩

theorem call_error {effect : σ → σ} (h : call effect faults s n = ⟨.error e, s', m⟩) :
    faults n = some e ∧ s' = s ∧ m = n + 1 := by
  cases hn : faults n
  case none => cases (call_none hn).symm.trans h
  case some e' =>
    cases (call_some hn).symm.trans h
    exact ⟨rfl, rfl, rfl⟩

theorem call_ok {effect : σ → σ} (h : call effect faults s n = ⟨.ok (), s', m⟩) :
    faults n = none ∧ s' = effect s ∧ m = n + 1 := by
  cases hn : faults n
  case none =>
    cases (call_none hn).symm.trans h
    exact ⟨rfl, rfl, rfl⟩
  case some e' => cases (call_some hn).symm.trans h

theorem when_error {c : Prop} [Decidable c] {x : Program ε σ Unit}
    (h : when c x faults s n = ⟨.error e, s', m⟩) : c ∧ x faults s n = ⟨.error e, s', m⟩ := by
  by_cases hc : c
  case pos =>
    rw [when_pos hc] at h
    exact ⟨hc, h⟩
  case neg =>
    rw [when_neg hc] at h
    cases h

-- A program without calls, that goes on whatever the state is.
def Total (x : Program ε σ α) : Prop :=
  ∀ faults s n, ∃ a s', x faults s n = ⟨.ok a, s', n⟩

namespace Total

theorem pure : Total (Pure.pure a : Program ε σ α) :=
  fun _ s _ => ⟨a, s, rfl⟩

theorem modify {effect : σ → σ} : Total (Program.modify effect : Program ε σ Unit) :=
  fun _ s _ => ⟨(), effect s, rfl⟩

theorem when {c : Prop} [Decidable c] {x : Program ε σ Unit} (h : Total x) : Total (when c x) := by
  by_cases hc : c
  case pos => rwa [when_pos hc]
  case neg =>
    rw [when_neg hc]
    exact .pure

theorem bind {x : Program ε σ α} {f : α → Program ε σ β} (hx : Total x) (hf : ∀ a, Total (f a)) : Total (x >>= f) := by
  intro faults s n
  have ⟨a, t, hx⟩ := hx faults s n
  have ⟨b, s', hf⟩ := hf a faults t n
  exact ⟨b, s', (bind_of_ok hx).trans hf⟩

theorem not_error {x : Program ε σ α} (h : Total x) : x faults s n ≠ ⟨.error e, s', m⟩ := by
  have ⟨_, _, hx⟩ := h faults s n
  rw [hx]
  nofun

end Total

-- What a program keeps, it keeps also when it fails.
def Keeps (P : σ → Prop) (x : Program ε σ α) : Prop :=
  ∀ faults s n, P s → P (x faults s n).state

namespace Keeps

variable {P : σ → Prop}

theorem of_eq {x : Program ε σ α} {result : Except ε α} (hk : Keeps P x) (hs : P s)
    (h : x faults s n = ⟨result, s', m⟩) : P s' := by
  have := hk faults s n hs
  rwa [h] at this

theorem pure : Keeps P (Pure.pure a : Program ε σ α) :=
  fun _ _ _ h => h

theorem lift {result : Except ε α} : Keeps P (lift result : Program ε σ α) :=
  fun _ _ _ h => h

theorem modify {effect : σ → σ} (h : ∀ s, P s → P (effect s)) : Keeps P (Program.modify effect : Program ε σ Unit) :=
  fun _ s _ hs => h s hs

theorem call {effect : σ → σ} (h : ∀ s, P s → P (effect s)) : Keeps P (call effect : Program ε σ Unit) := by
  intro faults s n hs
  cases hn : faults n
  case none =>
    rw [call_none hn]
    exact h s hs
  case some =>
    rw [call_some hn]
    exact hs

theorem when {c : Prop} [Decidable c] {x : Program ε σ Unit} (h : c → Keeps P x) : Keeps P (when c x) := by
  by_cases hc : c
  case pos =>
    rw [when_pos hc]
    exact h hc
  case neg =>
    rw [when_neg hc]
    exact .pure

theorem get_bind {f : σ → Program ε σ β} (hf : ∀ s, Keeps P (f s)) : Keeps P (get >>= f) :=
  fun faults s n h => hf s faults s n h

theorem bind {x : Program ε σ α} {f : α → Program ε σ β} (hx : Keeps P x) (hf : ∀ a, Keeps P (f a)) :
    Keeps P (x >>= f) := by
  intro faults s n hs
  obtain ⟨result, t, k, h⟩ : ∃ result t k, x faults s n = ⟨result, t, k⟩ := ⟨_, _, _, rfl⟩
  have ht := hx.of_eq hs h
  cases result
  case error =>
    rw [bind_of_error h]
    exact ht
  case ok a =>
    rw [bind_of_ok h]
    exact hf a faults t k ht

end Keeps

end Program

end Faults

-- Programs that may fail and note what they do. What has been noted before a failure stays noted.
structure Traced (τ ε α : Type) where
  trace : List τ
  result : Except ε α

namespace Traced

variable {τ ε α β : Type} {x : Traced τ ε α} {f : α → Traced τ ε β} {a : α} {e : ε} {event : τ}

instance : Monad (Traced τ ε) where
  pure a := ⟨[], .ok a⟩
  bind x f :=
    match x.result with
    | .ok a    => ⟨x.trace ++ (f a).trace, (f a).result⟩
    | .error e => ⟨x.trace, .error e⟩

-- A step that is noted and then comes to a result.
def note (event : τ) (result : Except ε α) : Traced τ ε α where
  trace := [event]
  result := result

def fail (e : ε) : Traced τ ε α where
  trace := []
  result := .error e

theorem pure_trace : (pure a : Traced τ ε α).trace = [] := rfl

theorem pure_result : (pure a : Traced τ ε α).result = .ok a := rfl

theorem bind_ok (h : x.result = .ok a) : x >>= f = ⟨x.trace ++ (f a).trace, (f a).result⟩ := by
  change (match x.result with | .ok a => _ | .error e => _) = _
  rw [h]

theorem bind_error (h : x.result = .error e) : x >>= f = ⟨x.trace, .error e⟩ := by
  change (match x.result with | .ok a => _ | .error e => _) = _
  rw [h]

theorem bind_result_ok {b : β} :
    (x >>= f).result = .ok b ↔ ∃ a, x.result = .ok a ∧ (f a).result = .ok b := by
  cases h : x.result
  case error e => simp [bind_error h]
  case ok a => simp [bind_ok h]

theorem mem_bind : event ∈ (x >>= f).trace ↔ event ∈ x.trace ∨ ∃ a, x.result = .ok a ∧ event ∈ (f a).trace := by
  cases h : x.result
  case error e => simp [bind_error h]
  case ok a => simp [bind_ok h]

theorem length_bind_le {n m : Nat} (hx : x.trace.length ≤ n) (hf : ∀ a, (f a).trace.length ≤ m) :
    (x >>= f).trace.length ≤ n + m := by
  cases h : x.result
  case error e =>
    rw [bind_error h]
    exact Nat.le_add_right_of_le hx
  case ok a =>
    rw [bind_ok h, List.length_append]
    exact Nat.add_le_add hx (hf a)

end Traced
