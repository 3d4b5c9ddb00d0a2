import Mathlib

universe u v w

-- Programs of threads that run side by side. The instructions `ι` are their atomic steps: between two of
-- them, other threads may run. A loop runs its body on a value until the body leaves the loop.
inductive Prog (ι : Type → Type) : Type → Type 1
  | ret {α : Type} (a : α) : Prog ι α
  | act {α β : Type} (i : ι β) (k : β → Prog ι α) : Prog ι α
  | iter {α β γ : Type} (body : β → Prog ι (β ⊕ γ)) (b : β) (k : γ → Prog ι α) : Prog ι α

namespace Prog

variable {ι : Type → Type} {α β γ δ : Type}

def bind : Prog ι α → (α → Prog ι β) → Prog ι β
  | ret a,         f => f a
  | act i k,       f => act i fun b => (k b).bind f
  | iter body b k, f => iter body b fun c => (k c).bind f

instance : Monad (Prog ι) where
  pure := ret
  bind := bind

instance : MonadLift ι (Prog ι) where
  monadLift i := act i ret

-- Goes on with a new value, or leaves the loop with a result.
def loop (body : β → Prog ι (β ⊕ γ)) (b : β) : Prog ι γ :=
  iter body b ret

-- The calls of a thread, one after the other. The next call may depend on the results so far.
inductive Calls (call : {α : Type} → Prog ι α → Prop) : Prog ι Unit → Prop
  | done : Calls call (.ret ())
  | call {α : Type} {p : Prog ι α} {k : α → Prog ι Unit} : call p → (∀ a, Calls call (k a)) →
      Calls call (p >>= k)

-- The instruction that a thread is about to execute.
def head : Prog ι α → Option (Σ β, ι β)
  | act i _ => some ⟨_, i⟩
  | _       => none

end Prog

-- The effect of instructions on the state that threads share. An instruction that has no result is not
-- enabled, which is how threads wait for locks.
structure Machine (ι : Type → Type) (σ : Type u) (τ : Type v) where
  exec {β : Type} : τ → ι β → σ → Option (β × σ)

structure Config (ι : Type → Type) (σ : Type u) (τ : Type v) where
  state : σ
  prog  : τ → Prog ι Unit

section

variable {ι : Type → Type} {σ : Type u} {τ : Type v} {α β : Type}

-- The next step of a thread. The start of a round of a loop is a step as well, and leaves the state as
-- it is.
def Prog.next (machine : Machine ι σ τ) (thread : τ) : Prog ι α → σ → Option (Prog ι α × σ)
  | ret _,         _     => none
  | act i k,       state => (machine.exec thread i state).map fun (b, state) => (k b, state)
  | iter body b k, state => some ((body b).bind (Sum.elim (iter body · k) k), state)

namespace Config

variable [DecidableEq τ]

def heads (config : Config ι σ τ) : τ → Option (Σ β, ι β) :=
  fun thread => (config.prog thread).head

def step (machine : Machine ι σ τ) (config : Config ι σ τ) (thread : τ) : Option (Config ι σ τ) :=
  ((config.prog thread).next machine thread config.state).map fun (prog, state) =>
    ⟨state, Function.update config.prog thread prog⟩

-- The steps of the given threads, one after the other.
def run (machine : Machine ι σ τ) : Config ι σ τ → List τ → Option (Config ι σ τ)
  | config, []                 => some config
  | config, thread :: schedule => (config.step machine thread).bind (run machine · schedule)

-- The configurations of all interleavings whose steps are allowed. Whether the step of a thread is
-- allowed may depend on the instructions that the other threads are about to execute.
inductive Reachable (machine : Machine ι σ τ) (allowed : σ → (τ → Option (Σ β, ι β)) → τ → Prop)
    (config : Config ι σ τ) : Config ι σ τ → Prop
  | refl : Reachable machine allowed config config
  | step {config' config'' : Config ι σ τ} {thread : τ} : Reachable machine allowed config config' →
      allowed config'.state config'.heads thread → config'.step machine thread = some config'' →
      Reachable machine allowed config config''

theorem Reachable.trans {machine : Machine ι σ τ} {allowed : σ → (τ → Option (Σ β, ι β)) → τ → Prop}
    {a b c : Config ι σ τ} (h : Reachable machine allowed a b) (h' : Reachable machine allowed b c) :
    Reachable machine allowed a c := by
  induction h'
  case refl => exact h
  case step ha hs hi => exact .step hi ha hs

theorem Reachable.of_run {machine : Machine ι σ τ} {schedule : List τ} {a b : Config ι σ τ}
    (h : a.run machine schedule = some b) : Reachable machine (fun _ _ _ => True) a b := by
  induction schedule generalizing a
  case nil =>
    cases h
    exact .refl
  case cons thread schedule hi =>
    simp only [run, Option.bind_eq_some_iff] at h
    have ⟨_, hs, hr⟩ := h
    exact Reachable.trans (.step .refl trivial hs) (hi hr)

-- The state at the end of a run is reached.
theorem Reachable.of_run_state (machine : Machine ι σ τ) (a : Config ι σ τ) {state : σ} (schedule : List τ)
    (h : (a.run machine schedule).map (·.state) = some state) :
    ∃ b, Reachable machine (fun _ _ _ => True) a b ∧ b.state = state := by
  have ⟨b, hr, hs⟩ := Option.map_eq_some_iff.mp h
  exact ⟨b, .of_run hr, hs⟩

-- What is seen at the end of a run is seen in a configuration that is reached.
theorem Reachable.of_run_view (machine : Machine ι σ τ) (a : Config ι σ τ) {ω : Type} (view : Config ι σ τ → ω) (seen : ω)
    (schedule : List τ) (h : (a.run machine schedule).map view = some seen) :
    ∃ b, Reachable machine (fun _ _ _ => True) a b ∧ view b = seen := by
  have ⟨b, hr, hs⟩ := Option.map_eq_some_iff.mp h
  exact ⟨b, .of_run hr, hs⟩

end Config

end

-- A protocol says what threads keep to while they run. It gives each thread a private value, which stands
-- for the part of its progress that matters to the others, and relates the values of all threads to the
-- shared state. What a thread is about to execute has to fit its value, and `enabled` is what the steps of
-- a run are known to satisfy, given the instruction that the thread is about to execute.
structure Protocol {ι : Type → Type} {σ : Type u} {τ : Type v} (machine : Machine ι σ τ) (γ : Type w) where
  inv     : σ → (τ → γ) → Prop
  fits    : γ → Option (Σ β, ι β) → Prop := fun _ _ => True
  enabled : σ → (τ → γ) → τ → Option (Σ β, ι β) → Prop := fun _ _ _ _ => True

namespace Protocol

variable {ι : Type → Type} {σ : Type u} {τ : Type v} {γ : Type w} {α β δ : Type} [DecidableEq τ]
variable {machine : Machine ι σ τ}

-- The weakest precondition of a program: each of its steps keeps the invariant, and its result satisfies
-- the postcondition.
def wp (protocol : Protocol machine γ) (thread : τ) {α : Type} :
    Prog ι α → (α → γ → Prop) → γ → Prop
  | .ret a, post, g => post a g
  | .act i k, post, g => protocol.fits g (some ⟨_, i⟩) ∧ ∀ state values, protocol.inv state values →
      values thread = g → protocol.enabled state values thread (some ⟨_, i⟩) → ∀ b state',
      machine.exec thread i state = some (b, state') →
      ∃ g', protocol.inv state' (Function.update values thread g') ∧ protocol.wp thread (k b) post g'
  | .iter (β := β) body b k, post, g => ∃ inv : β → γ → Prop, inv b g ∧ ∀ b g, inv b g →
      protocol.fits g none ∧ protocol.wp thread (body b)
        (fun result g => result.elim (inv · g) fun c => protocol.wp thread (k c) post g) g

variable {protocol : Protocol machine γ} {thread : τ} {g : γ}

theorem wp.mono {p : Prog ι α} {post post' : α → γ → Prop} (h : protocol.wp thread p post g)
    (hp : ∀ a g, post a g → post' a g) : protocol.wp thread p post' g := by
  induction p generalizing g
  case ret a => exact hp _ _ h
  case act i k hi =>
    refine ⟨h.1, fun state values hinv hg he b state' hx => ?_⟩
    have ⟨g', hinv', hk⟩ := h.2 state values hinv hg he b state' hx
    exact ⟨g', hinv', hi b hk hp⟩
  case iter body b k hbody hk =>
    have ⟨inv, hb, hstep⟩ := h
    refine ⟨inv, hb, fun b g hg => ⟨(hstep b g hg).1, hbody b (hstep b g hg).2 fun result g hr => ?_⟩⟩
    cases result
    case inl => exact hr
    case inr c => exact hk c hr hp

theorem wp.bind {p : Prog ι α} {f : α → Prog ι β} {post : β → γ → Prop}
    (h : protocol.wp thread p (fun a g => protocol.wp thread (f a) post g) g) :
    protocol.wp thread (p >>= f) post g := by
  induction p generalizing g
  case ret a => exact h
  case act i k hi =>
    refine ⟨h.1, fun state values hinv hg he b state' hx => ?_⟩
    have ⟨g', hinv', hk⟩ := h.2 state values hinv hg he b state' hx
    exact ⟨g', hinv', hi b hk⟩
  case iter body b k _ hk =>
    have ⟨inv, hb, hstep⟩ := h
    refine ⟨inv, hb, fun b g hg => ⟨(hstep b g hg).1, (hstep b g hg).2.mono fun result g hr => ?_⟩⟩
    cases result
    case inl => exact hr
    case inr c => exact hk c hr

-- The rule for a single instruction.
theorem wp.instr {i : ι β} {post : β → γ → Prop} (hf : protocol.fits g (some ⟨_, i⟩))
    (h : ∀ state values b state', protocol.inv state values → values thread = g →
      protocol.enabled state values thread (some ⟨_, i⟩) → machine.exec thread i state = some (b, state') →
      ∃ g', protocol.inv state' (Function.update values thread g') ∧ post b g') :
    protocol.wp thread (liftM i) post g :=
  ⟨hf, fun state values hinv hg he b state' => h state values b state' hinv hg he⟩

-- The rule for an instruction that is always enabled.
theorem wp.total {i : ι β} {post : β → γ → Prop} {f : σ → β × σ}
    (hx : ∀ state, machine.exec thread i state = some (f state)) (hf : protocol.fits g (some ⟨_, i⟩))
    (h : ∀ state values, protocol.inv state values → values thread = g →
      protocol.enabled state values thread (some ⟨_, i⟩) →
      ∃ g', protocol.inv (f state).2 (Function.update values thread g') ∧ post (f state).1 g') :
    protocol.wp thread (liftM i) post g :=
  .instr hf fun state values b state' hinv hg he hs => by
    have heq : f state = (b, state') := Option.some.inj ((hx state).symm.trans hs)
    have := h state values hinv hg he
    rwa [heq] at this

-- The rule for loops.
theorem wp.loop {body : β → Prog ι (β ⊕ α)} {b : β} {post : α → γ → Prop} (inv : β → γ → Prop)
    (hb : inv b g) (hf : ∀ b g, inv b g → protocol.fits g none)
    (hs : ∀ b g, inv b g → protocol.wp thread (body b) (fun result g => result.elim (inv · g) (post · g)) g) :
    protocol.wp thread (Prog.loop body b) post g :=
  ⟨inv, hb, fun b g h => ⟨hf b g h, hs b g h⟩⟩

theorem wp.calls {call : {α : Type} → Prog ι α → Prop} {p : Prog ι Unit} {idle : γ → Prop}
    (h : p.Calls call) (hg : idle g)
    (hc : ∀ {α : Type} {p : Prog ι α} {g}, call p → idle g → protocol.wp thread p (fun _ g => idle g) g) :
    protocol.wp thread p (fun _ g => idle g) g := by
  induction h generalizing g
  case done => exact hg
  case call hp _ hi => exact .bind ((hc hp hg).mono fun a g hg => hi a hg)

-- The invariant holds in every configuration that is reached, and every thread goes on as before.
structure Sound (protocol : Protocol machine γ) (post : τ → γ → Prop) (config : Config ι σ τ)
    (values : τ → γ) : Prop where
  inv : protocol.inv config.state values
  wp  : ∀ thread, protocol.wp thread (config.prog thread) (fun _ => post thread) (values thread)

theorem Sound.fits {post : τ → γ → Prop} {config : Config ι σ τ} {values : τ → γ}
    (h : Sound protocol post config values) (thread : τ) :
    (∃ a, config.prog thread = .ret a ∧ post thread (values thread)) ∨
    protocol.fits (values thread) (config.heads thread) := by
  have hw := h.wp thread
  simp only [Config.heads]
  cases hp : config.prog thread
  case ret a =>
    rw [hp] at hw
    exact .inl ⟨a, rfl, hw⟩
  case act =>
    rw [hp] at hw
    exact .inr hw.1
  case iter =>
    rw [hp] at hw
    have ⟨inv, hb, hstep⟩ := hw
    exact .inr (hstep _ _ hb).1

theorem Sound.step {post : τ → γ → Prop} {config config' : Config ι σ τ} {values : τ → γ}
    (h : Sound protocol post config values) (he : protocol.enabled config.state values thread (config.heads thread))
    (hs : config.step machine thread = some config') :
    ∃ values', Sound protocol post config' values' := by
  have hw := h.wp thread
  simp only [Config.step, Option.map_eq_some_iff] at hs
  obtain ⟨⟨p, state'⟩, hn, rfl⟩ := hs
  -- Only the program of the thread that takes the step changes.
  have hprogs {g'} (hwp : protocol.wp thread p (fun _ => post thread) g') (other : τ) :
      protocol.wp other (Function.update config.prog thread p other) (fun _ => post other)
        (Function.update values thread g' other) := by
    by_cases ho : other = thread
    case pos => simpa [ho] using hwp
    case neg => simpa [ho] using h.wp other
  cases hp : config.prog thread
  case ret => simp [hp, Prog.next] at hn
  case act i k =>
    rw [hp] at hw hn
    simp only [Config.heads, hp, Prog.head] at he
    simp only [Prog.next, Option.map_eq_some_iff, Prod.mk.injEq] at hn
    obtain ⟨⟨b, s⟩, hx, rfl, rfl⟩ := hn
    have ⟨g', hinv, hk⟩ := hw.2 _ _ h.inv rfl he b s hx
    exact ⟨_, hinv, hprogs hk⟩
  case iter body b k =>
    rw [hp] at hw hn
    simp only [Prog.next, Option.some.injEq, Prod.mk.injEq] at hn
    obtain ⟨rfl, rfl⟩ := hn
    have ⟨inv, hb, hstep⟩ := hw
    refine ⟨Function.update values thread (values thread), by simpa using h.inv, hprogs ?_⟩
    refine wp.bind ((hstep _ _ hb).2.mono fun result g hr => ?_)
    cases result
    case inl b => exact ⟨inv, hr, hstep⟩
    case inr c => exact hr

theorem sound {post : τ → γ → Prop} {allowed : σ → (τ → Option (Σ β, ι β)) → τ → Prop}
    {config config' : Config ι σ τ} {values : τ → γ} (h : Sound protocol post config values)
    (ha : ∀ config values thread, Sound protocol post config values →
      allowed config.state config.heads thread →
      protocol.enabled config.state values thread (config.heads thread))
    (hr : Config.Reachable machine allowed config config') :
    ∃ values', Sound protocol post config' values' := by
  induction hr
  case refl => exact ⟨values, h⟩
  case step config config' thread _ hallowed hs hi =>
    have ⟨_, hsound⟩ := hi
    exact hsound.step (ha _ _ _ hsound hallowed) hs

end Protocol

-- A program that runs by itself: no other thread takes a step until it is done.
namespace Prog

variable {ι : Type → Type} {σ : Type u} {τ : Type v} {α β γ δ : Type}

def Next (machine : Machine ι σ τ) (thread : τ) (a b : Prog ι α × σ) : Prop :=
  a.1.next machine thread a.2 = some b

def Runs (machine : Machine ι σ τ) (thread : τ) (p : Prog ι α) (state : σ) (result : α) (state' : σ) : Prop :=
  Relation.ReflTransGen (Next machine thread) (p, state) (.ret result, state')

variable {machine : Machine ι σ τ} {thread : τ} {state state' state'' : σ}

theorem bind_assoc (p : Prog ι α) (f : α → Prog ι β) (g : β → Prog ι δ) :
    (p.bind f).bind g = p.bind fun a => (f a).bind g := by
  induction p
  case ret => rfl
  case act i k hi =>
    simp only [bind]
    exact congrArg (act i) (funext fun b => hi b f)
  case iter body b k _ hk =>
    simp only [bind]
    exact congrArg (iter body b) (funext fun c => hk c f)

theorem next_bind {p p' : Prog ι α} (f : α → Prog ι β) (h : p.next machine thread state = some (p', state')) :
    (p.bind f).next machine thread state = some (p'.bind f, state') := by
  cases p
  case ret => cases h
  case act i k =>
    simp only [next, Option.map_eq_some_iff, Prod.mk.injEq] at h
    obtain ⟨⟨b, s⟩, hx, rfl, rfl⟩ := h
    simp only [bind, next, hx, Option.map_some]
  case iter body b k =>
    simp only [next, Option.some.injEq, Prod.mk.injEq] at h
    obtain ⟨rfl, rfl⟩ := h
    have helim : (fun c => (Sum.elim (iter body · k) k c).bind f) =
        Sum.elim (iter body · fun c => (k c).bind f) fun c => (k c).bind f := by
      funext c
      cases c <;> rfl
    simp only [bind, next, bind_assoc, helim]

namespace Runs

theorem ret (a : α) : Runs machine thread (.ret a) state a state :=
  .refl

theorem instr {i : ι β} {b : β} (h : machine.exec thread i state = some (b, state')) :
    Runs machine thread (liftM i) state b state' :=
  .single (by simp [Next, liftM, monadLift, MonadLift.monadLift, next, h])

theorem bind {p : Prog ι α} {f : α → Prog ι β} {a : α} {b : β} (hp : Runs machine thread p state a state')
    (hf : Runs machine thread (f a) state' b state'') : Runs machine thread (p >>= f) state b state'' := by
  have hlift (x y : Prog ι α × σ) (h : Next machine thread x y) :
      Next machine thread (x.1.bind f, x.2) (y.1.bind f, y.2) :=
    next_bind f h
  exact .trans (hp.lift (fun x => (x.1.bind f, x.2)) hlift) hf

theorem again {body : β → Prog ι (β ⊕ γ)} {b b' : β} {c : γ} (hb : Runs machine thread (body b) state (.inl b') state')
    (hl : Runs machine thread (Prog.loop body b') state' c state'') :
    Runs machine thread (Prog.loop body b) state c state'' :=
  .head rfl (bind (f := Sum.elim (iter body · Prog.ret) Prog.ret) hb hl)

theorem leave {body : β → Prog ι (β ⊕ γ)} {b : β} {c : γ} (hb : Runs machine thread (body b) state (.inr c) state') :
    Runs machine thread (Prog.loop body b) state c state' :=
  .head rfl (bind (f := Sum.elim (iter body · Prog.ret) Prog.ret) hb (ret c))

-- A loop comes to an end if each of its rounds makes some measure smaller. What the rounds that follow do is then added
-- to what a round does.
theorem loop {body : β → Prog ι (β ⊕ γ)} (pre : β → σ → Prop) (post : β → σ → γ → σ → Prop) (measure : β → σ → Nat)
    (hround : ∀ b state, pre b state →
      (∃ c state', Runs machine thread (body b) state (.inr c) state' ∧ post b state c state') ∨
      ∃ b' state', Runs machine thread (body b) state (.inl b') state' ∧ pre b' state' ∧
        measure b' state' < measure b state ∧ ∀ c state'', post b' state' c state'' → post b state c state'') {b : β}
    (hpre : pre b state) : ∃ c state', Runs machine thread (Prog.loop body b) state c state' ∧ post b state c state' := by
  induction hm : measure b state using Nat.strong_induction_on generalizing b state
  case _ hi =>
    obtain ⟨c, state', hbody, hpost⟩ | ⟨b', state', hbody, hpre', hlt, hadd⟩ := hround b state hpre
    case inl => exact ⟨c, state', leave hbody, hpost⟩
    case inr =>
      obtain ⟨c, state'', hloop, hpost⟩ := hi _ (hm ▸ hlt) hpre' rfl
      exact ⟨c, state'', again hbody hloop, hadd c state'' hpost⟩

-- A run has one result.
theorem unique {p : Prog ι α} {a b : α} (h : Runs machine thread p state a state')
    (h' : Runs machine thread p state b state'') : a = b ∧ state' = state'' := by
  have hstuck {x y : α} {s s' : σ} (hr : Relation.ReflTransGen (Next machine thread) (Prog.ret x, s) (.ret y, s')) :
      x = y ∧ s = s' := by
    cases hr.cases_head
    case inl he => simpa using he
    case inr hs =>
      obtain ⟨_, hn, _⟩ := hs
      cases hn
  have hunique : Relator.RightUnique (Next machine thread (α := α)) := by
    intro x y z hy hz
    exact Option.some.inj (hy.symm.trans hz)
  cases Relation.ReflTransGen.total_of_right_unique hunique h h'
  case inl hr => exact hstuck hr
  case inr hr => exact (hstuck hr).imp Eq.symm Eq.symm

end Runs

end Prog
