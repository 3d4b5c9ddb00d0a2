import Mathlib

universe u v w x

-- What the requests of threads go through: a thread begins a request, drains pools for it, fails to serve it from what
-- is left, and refuses it. A history starts with the last event.
inductive Attempt (τ : Type u) (κ : Type v) (ρ : Type w) (α : Type x)
  | began (thread : τ)
  | drained (thread : τ) (pool : κ)
  | failed (thread : τ) (request : ρ) (left : α)
  | refused (thread : τ) (request : ρ)

namespace Attempt

variable {τ : Type u} {κ : Type v} {ρ : Type w} {α : Type x}

def thread : Attempt τ κ ρ α → τ
  | began thread      => thread
  | drained thread _  => thread
  | failed thread _ _ => thread
  | refused thread _  => thread

def isBegan : Attempt τ κ ρ α → Bool
  | began _ => true
  | _       => false

variable [DecidableEq τ]

-- What a thread has gone through since it began its last request.
def since (thread : τ) : List (Attempt τ κ ρ α) → List (Attempt τ κ ρ α)
  | []               => []
  | event :: history =>
    if event.thread = thread then
      if event.isBegan then [] else event :: since thread history
    else
      since thread history

-- A request is refused after all pools were drained for it and the attempt after that failed.
def Justified (fails : ρ → α → Prop) (history : List (Attempt τ κ ρ α)) : Prop :=
  ∀ later earlier thread request, history = later ++ .refused thread request :: earlier →
    (∃ left, (since thread earlier).head? = some (.failed thread request left) ∧ fails request left) ∧
    ∀ pool, .drained thread pool ∈ since thread earlier

-- The pools that a thread has drained since its request began, and the request that has failed last.
structure Progress (κ : Type v) (ρ : Type w) where
  drained : List κ
  failed : Option ρ

variable {fails : ρ → α → Prop} {history : List (Attempt τ κ ρ α)} {event : Attempt τ κ ρ α} {thread : τ}
variable {progress : Progress κ ρ} {values : τ → Progress κ ρ} {request : ρ}

structure Tells (fails : ρ → α → Prop) (history : List (Attempt τ κ ρ α)) (thread : τ) (progress : Progress κ ρ) :
    Prop where
  drained : ∀ pool ∈ progress.drained, .drained thread pool ∈ since thread history
  failed  : ∀ request, progress.failed = some request → ∃ left,
              (since thread history).head? = some (.failed thread request left) ∧ fails request left

theorem since_cons_ne (history : List (Attempt τ κ ρ α)) (h : event.thread ≠ thread) :
    since thread (event :: history) = since thread history := by
  rw [since, if_neg h]

theorem since_cons (h : event.thread = thread) (hb : event.isBegan = false) :
    since thread (event :: history) = event :: since thread history := by
  rw [since, if_pos h, hb]
  rfl

theorem Tells.of_ne (h : Tells fails history thread progress) (hne : event.thread ≠ thread) :
    Tells fails (event :: history) thread progress := by
  have hsince := since_cons_ne history hne
  exact ⟨hsince ▸ h.drained, hsince ▸ h.failed⟩

theorem Tells.began : Tells fails (.began thread :: history) thread (⟨[], none⟩ : Progress κ ρ) where
  drained pool hp := by cases hp
  failed _ hr     := by cases hr

-- The pools that were drained stay so.
theorem Tells.keep (h : Tells fails history thread progress) (he : event.thread = thread)
    (hb : event.isBegan = false) :
    ∀ pool ∈ progress.drained, .drained thread pool ∈ since thread (event :: history) := by
  intro pool hp
  rw [since_cons he hb]
  exact .tail _ (h.drained pool hp)

theorem Tells.drain (h : Tells fails history thread progress) (pool : κ) :
    Tells fails (.drained thread pool :: history) thread ⟨pool :: progress.drained, none⟩ where
  drained other ho := by
    rcases List.mem_cons.mp ho with rfl | ho
    case inl =>
      have hs : since thread (.drained thread other :: history) = .drained thread other :: since thread history :=
        since_cons rfl rfl
      rw [hs]
      exact .head _
    case inr => exact h.keep rfl rfl other ho
  failed _ hr := by cases hr

theorem Tells.fail (h : Tells fails history thread progress) {left : α} (hf : fails request left) :
    Tells fails (.failed thread request left :: history) thread { progress with failed := some request } where
  drained := h.keep rfl rfl
  failed r hr := by
    cases hr
    have hs : since thread (.failed thread request left :: history) =
      .failed thread request left :: since thread history := since_cons rfl rfl
    exact ⟨left, by rw [hs]; rfl, hf⟩

theorem Tells.refuse (h : Tells fails history thread progress) :
    Tells fails (.refused thread request :: history) thread { progress with failed := none } where
  drained     := h.keep rfl rfl
  failed _ hr := by cases hr

-- What all threads have gone through.
structure Told (fails : ρ → α → Prop) (history : List (Attempt τ κ ρ α)) (values : τ → Progress κ ρ) : Prop where
  tells     : ∀ t, Tells fails history t (values t)
  justified : Justified fails history

theorem Told.cons (h : Told fails history values) (ht : event.thread = thread)
    (hp : Tells fails (event :: history) thread progress)
    (hr : ∀ request, event = .refused thread request → (values thread).failed = some request ∧
      ∀ pool, pool ∈ (values thread).drained) :
    Told fails (event :: history) (Function.update values thread progress) where
  tells t := by
    by_cases he : t = thread
    case pos =>
      subst he
      rwa [Function.update_self]
    case neg =>
      rw [Function.update_of_ne he]
      exact (h.tells t).of_ne fun heq => he (heq.symm.trans ht)
  justified later earlier t request heq := by
    cases later
    case nil =>
      obtain ⟨rfl, rfl⟩ := List.cons.inj heq
      have ht : t = thread := ht
      subst ht
      have hrefused := hr request rfl
      exact ⟨(h.tells t).failed request hrefused.1, fun pool => (h.tells t).drained pool (hrefused.2 pool)⟩
    case cons => exact h.justified _ earlier t request (List.cons.inj heq).2

theorem Told.begin (h : Told fails history values) (thread : τ) :
    Told fails (.began thread :: history) (Function.update values thread ⟨[], none⟩) :=
  h.cons rfl .began fun _ he => by cases he

theorem Told.drain (h : Told fails history values) (hv : values thread = progress) (pool : κ) :
    Told fails (.drained thread pool :: history)
      (Function.update values thread ⟨pool :: progress.drained, none⟩) :=
  h.cons rfl ((hv ▸ h.tells thread).drain pool) fun _ he => by cases he

theorem Told.fail (h : Told fails history values) (hv : values thread = progress) {left : α} (hf : fails request left) :
    Told fails (.failed thread request left :: history)
      (Function.update values thread { progress with failed := some request }) :=
  h.cons rfl ((hv ▸ h.tells thread).fail hf) fun _ he => by cases he

theorem Told.refuse (h : Told fails history values) (hv : values thread = progress)
    (hf : progress.failed = some request) (hd : ∀ pool, pool ∈ progress.drained) :
    Told fails (.refused thread request :: history) (Function.update values thread { progress with failed := none }) :=
  h.cons rfl (hv ▸ h.tells thread).refuse fun _ he => by
    cases he
    exact hv ▸ ⟨hf, hd⟩

theorem Told.same (h : Told fails history values) (hv : values thread = progress) :
    Told fails history (Function.update values thread progress) := by
  rwa [← hv, Function.update_eq_self]

theorem told_nil : Told fails ([] : List (Attempt τ κ ρ α)) fun _ => ⟨[], none⟩ where
  tells t := ⟨fun pool hp => (by cases hp), fun request hr => (by cases hr)⟩
  justified later earlier t request heq := by simp at heq

end Attempt
