import WllOs.Platform.Tlb

namespace WllOs

open Function (update)

-- Where a processor is in `mark_current_address_space`, with the request it has loaded.
inductive MarkStep
  | published
  | loaded (request : Nat)
  | stale (request : Nat)
  | flushed (request : Nat)

namespace MarkStep

-- The processor flushes before it is done.
def WillFlush (ack : Nat) : MarkStep → Prop
  | published      => True
  | loaded request => ack ≠ request
  | stale _        => True
  | flushed _      => False

def request? : MarkStep → Option Nat
  | published => none
  | loaded request | stale request | flushed request => some request

end MarkStep

-- What a processor is at: switching its root, or retiring the translations from before an edit of a page
-- table. The processors that remain are the ones it has yet to request a flush from, or to settle.
inductive TlbPhase
  | idle
  | entering (root : Nat)
  | marking (root : Nat) (step : MarkStep)
  | activating (root : Nat)
  | restoring
  | edited (root version : Nat)
  | flushed (root version : Nat)
  | requesting (root version generation : Nat) (remaining : List Nat)
  | settling (root version : Nat) (remaining : List Nat)

-- The generation that a processor requests flushes with.
def TlbPhase.generation? : TlbPhase → Option Nat
  | requesting _ _ generation _ => some generation
  | _                           => none

namespace TlbState

variable {platform : Platform} {state state' : TlbState} {values values' : Nat → TlbPhase}
variable {cpu other root version : Nat}

-- A processor has no translation of a root from before an edit.
def Clean (state : TlbState) (cpu root version : Nat) : Prop :=
  ∀ cachedAt, (root, cachedAt) ∈ state.cached cpu → version ≤ cachedAt

-- A processor will find a request that it has not acknowledged.
def Pending (state : TlbState) (values : Nat → TlbPhase) (cpu : Nat) : Prop :=
  state.tlbRequest cpu ≠ state.tlbAck cpu ∧
  ∀ root request, values cpu = .marking root (.flushed request) → state.tlbRequest cpu ≠ request

-- A processor flushes before it runs a root.
def Away (state : TlbState) (values : Nat → TlbPhase) (cpu root : Nat) : Prop :=
  state.activeAddressSpace cpu ≠ root ∨
  ∃ step, values cpu = .marking root step ∧ step.WillFlush (state.tlbAck cpu)

def Requested (state : TlbState) (values : Nat → TlbPhase) (cpu root version : Nat) : Prop :=
  state.Clean cpu root version ∨ state.Pending values cpu

def Settled (state : TlbState) (values : Nat → TlbPhase) (cpu root version : Nat) : Prop :=
  state.Clean cpu root version ∨ state.Pending values cpu ∧ state.Away values cpu root

-- What holds of the processors that a shootdown has dealt with.
def Obligation (platform : Platform) (state : TlbState) (values : Nat → TlbPhase) (cpu : Nat) :
    TlbPhase → Prop
  | .edited root version => version ≤ state.edits root
  | .flushed root version => version ≤ state.edits root ∧ state.Clean cpu root version
  | .requesting root version _ remaining =>
    version ≤ state.edits root ∧ state.Clean cpu root version ∧
    ∀ other ∈ platform.onlineCpus, other ∉ remaining → state.Requested values other root version
  | .settling root version remaining =>
    root ≠ 0 ∧ version ≤ state.edits root ∧
    (∀ other ∈ platform.onlineCpus, state.Requested values other root version) ∧
    ∀ other ∈ platform.onlineCpus, other ∉ remaining → state.Settled values other root version
  | _ => True

-- The roots of a processor. They differ only while it switches between them.
def Roots (state : TlbState) (cpu : Nat) : TlbPhase → Prop
  | .marking root _ | .activating root => state.activeAddressSpace cpu = root ∧ state.satp cpu ≠ root
  | .entering root                     => state.satp cpu = state.activeAddressSpace cpu ∧ state.satp cpu ≠ root
  | .restoring                         => state.activeAddressSpace cpu = 0
  | _                                  => state.satp cpu = state.activeAddressSpace cpu

-- A generation that is still to be requested from a processor is new to it.
def Fresh (state : TlbState) (values : Nat → TlbPhase) (generation cpu : Nat) : Prop :=
  state.tlbRequest cpu ≠ generation ∧ state.tlbAck cpu ≠ generation ∧
  ∀ root step, values cpu = .marking root step → step.request? ≠ some generation

structure Inv (platform : Platform) (state : TlbState) (values : Nat → TlbPhase) : Prop where
  roots      : ∀ cpu, state.Roots cpu (values cpu)
  online     : ∀ cpu, state.activeAddressSpace cpu ≠ 0 → cpu ∈ platform.onlineCpus
  old        : ∀ cpu, state.tlbRequest cpu ≤ state.tlbGeneration ∧ state.tlbAck cpu ≤ state.tlbGeneration ∧
                 ∀ root step request, values cpu = .marking root step → step.request? = some request →
                   request ≤ state.tlbGeneration
  fresh      : ∀ cpu root version generation remaining,
                 values cpu = .requesting root version generation remaining →
                 generation ≤ state.tlbGeneration ∧ remaining.Nodup ∧
                 ∀ other ∈ remaining, state.Fresh values generation other
  distinct   : ∀ cpu other generation, (values cpu).generation? = some generation →
                 (values other).generation? = some generation → cpu = other
  obligation : ∀ cpu, state.Obligation platform values cpu (values cpu)
  completed  : ∀ root version, root ≠ 0 → (root, version) ∈ state.completed →
                 version ≤ state.edits root ∧
                 ∀ cpu ∈ platform.onlineCpus, state.Settled values cpu root version

-- A processor that runs a root has no phase in which a flush is still due.
theorem Inv.safe (h : state.Inv platform values) : state.Safe := by
  intro cpu root version hroot hc ha hs
  have honline := h.online cpu (ha.trans_ne hroot)
  have ⟨_, hsettled⟩ := h.completed root version hroot hc
  have hr := h.roots cpu
  cases hsettled cpu honline
  case inl hclean => exact hclean
  case inr hp =>
    cases hp.2
    case inl hne => exact absurd ha hne
    case inr hm =>
      have ⟨step, hv, _⟩ := hm
      rw [hv] at hr
      exact absurd hs hr.2

-- What holds of processors stays so when one of them takes a step.
structure Keeps (state : TlbState) (values : Nat → TlbPhase) (state' : TlbState)
    (values' : Nat → TlbPhase) : Prop where
  edits     : ∀ root, state.edits root ≤ state'.edits root
  clean     : ∀ cpu root version, version ≤ state.edits root → state.Clean cpu root version →
                state'.Clean cpu root version
  requested : ∀ cpu, state.Pending values cpu → (∀ root version, state'.Clean cpu root version) ∨
                state'.Pending values' cpu
  settled   : ∀ cpu root, root ≠ 0 → state.Pending values cpu → state.Away values cpu root →
                (∀ version, state'.Clean cpu root version) ∨ state'.Away values' cpu root

namespace Keeps

theorem requested' (h : Keeps state values state' values') (hv : version ≤ state.edits root)
    (hr : state.Requested values cpu root version) : state'.Requested values' cpu root version := by
  cases hr
  case inl hc => exact .inl (h.clean cpu root version hv hc)
  case inr hp => exact (h.requested cpu hp).imp_left (· root version)

theorem settled' (h : Keeps state values state' values') (hroot : root ≠ 0)
    (hv : version ≤ state.edits root) (hs : state.Settled values cpu root version) :
    state'.Settled values' cpu root version := by
  cases hs
  case inl hc => exact .inl (h.clean cpu root version hv hc)
  case inr hp =>
    cases h.requested cpu hp.1
    case inl hc => exact .inl (hc root version)
    case inr hp' =>
      cases h.settled cpu root hroot hp.1 hp.2
      case inl hc => exact .inl (hc version)
      case inr ha => exact .inr ⟨hp', ha⟩

theorem obligation {phase : TlbPhase} (h : Keeps state values state' values')
    (ho : state.Obligation platform values cpu phase) : state'.Obligation platform values' cpu phase := by
  cases phase
  case edited root version => exact Nat.le_trans ho (h.edits root)
  case flushed root version => exact ⟨Nat.le_trans ho.1 (h.edits root), h.clean _ _ _ ho.1 ho.2⟩
  case requesting root version generation remaining =>
    exact ⟨Nat.le_trans ho.1 (h.edits root), h.clean _ _ _ ho.1 ho.2.1,
      fun other hm hn => h.requested' ho.1 (ho.2.2 other hm hn)⟩
  case settling root version remaining =>
    have ⟨hroot, hv, hr, hs⟩ := ho
    exact ⟨hroot, Nat.le_trans hv (h.edits root), fun other hm => h.requested' hv (hr other hm),
      fun other hm hn => h.settled' hroot hv (hs other hm hn)⟩
  all_goals exact trivial

-- A step that concerns a processor neither in its translations nor in its requests.
structure Same (state : TlbState) (values : Nat → TlbPhase) (state' : TlbState)
    (values' : Nat → TlbPhase) (cpu : Nat) : Prop where
  cached  : state'.cached cpu = state.cached cpu
  request : state'.tlbRequest cpu = state.tlbRequest cpu
  ack     : state'.tlbAck cpu = state.tlbAck cpu
  active  : state'.activeAddressSpace cpu = state.activeAddressSpace cpu
  marking : ∀ root step, values' cpu = .marking root step ↔ values cpu = .marking root step

theorem Same.clean (h : Same state values state' values' cpu) (hc : state.Clean cpu root version) :
    state'.Clean cpu root version :=
  fun cachedAt hm => hc cachedAt (h.cached ▸ hm)

theorem Same.pending (h : Same state values state' values' cpu) (hp : state.Pending values cpu) :
    state'.Pending values' cpu :=
  ⟨by rw [h.request, h.ack]; exact hp.1,
    fun root request hv => by rw [h.request]; exact hp.2 root request ((h.marking _ _).mp hv)⟩

theorem Same.away (h : Same state values state' values' cpu) (ha : state.Away values cpu root) :
    state'.Away values' cpu root :=
  ha.imp (h.active ▸ ·) fun ⟨step, hv, hw⟩ => ⟨step, (h.marking _ _).mpr hv, h.ack ▸ hw⟩

-- Only the given processor is concerned.
theorem of_same (cpu : Nat) (he : ∀ root, state.edits root ≤ state'.edits root)
    (ho : ∀ other, other ≠ cpu → Same state values state' values' other)
    (hc : ∀ root version, version ≤ state.edits root → state.Clean cpu root version →
      state'.Clean cpu root version)
    (hr : state.Pending values cpu → (∀ root version, state'.Clean cpu root version) ∨
      state'.Pending values' cpu)
    (hs : ∀ root, root ≠ 0 → state.Pending values cpu → state.Away values cpu root →
      (∀ version, state'.Clean cpu root version) ∨ state'.Away values' cpu root) :
    Keeps state values state' values' where
  edits := he
  clean other root version hv hclean := by
    by_cases heq : other = cpu
    case pos => exact heq ▸ hc root version hv (heq ▸ hclean)
    case neg => exact (ho other heq).clean hclean
  requested other hp := by
    by_cases heq : other = cpu
    case pos => exact heq ▸ hr (heq ▸ hp)
    case neg => exact .inr ((ho other heq).pending hp)
  settled other root hroot hp ha := by
    by_cases heq : other = cpu
    case pos => exact heq ▸ hs root hroot (heq ▸ hp) (heq ▸ ha)
    case neg => exact .inr ((ho other heq).away ha)

-- No processor is concerned, other than those that are flushed.
theorem of_flush (he : ∀ root, state.edits root ≤ state'.edits root)
    (h : ∀ cpu, state'.cached cpu = [] ∨ Same state values state' values' cpu) :
    Keeps state values state' values' where
  edits := he
  clean cpu root version _ hc := (h cpu).elim (fun h _ hm => by simp [h] at hm) (·.clean hc)
  requested cpu hp := (h cpu).imp (fun h _ _ _ hm => by simp [h] at hm) (·.pending hp)
  settled cpu root _ _ ha := (h cpu).imp (fun h _ _ hm => by simp [h] at hm) (·.away ha)

end Keeps

variable {g : TlbPhase}

-- A step of a processor that leaves the requests as they are, and whose phase asks for no further ones.
structure Quiet (state state' : TlbState) (cpu : Nat) (before after : TlbPhase) : Prop where
  others     : ∀ other, other ≠ cpu → state'.activeAddressSpace other = state.activeAddressSpace other ∧
                 state'.satp other = state.satp other
  generation : state'.tlbGeneration = state.tlbGeneration
  request    : state'.tlbRequest = state.tlbRequest
  ack        : ∀ other, state'.tlbAck other = state.tlbAck other ∨
                 ∃ root request, before = .marking root (.flushed request) ∧ other = cpu ∧
                   state'.tlbAck cpu = request
  marking    : ∀ root step request, after = .marking root step → step.request? = some request →
                 request = state.tlbRequest cpu ∨
                 ∃ root step, before = .marking root step ∧ step.request? = some request
  requesting : after.generation? = none
  completed  : state'.completed = state.completed

theorem Quiet.fresh {generation : Nat} (hq : Quiet state state' cpu (values cpu) g)
    (h : state.Fresh values generation other) : state'.Fresh (update values cpu g) generation other := by
  refine ⟨by rw [hq.request]; exact h.1, ?_, fun root step hv hs => ?_⟩
  case refine_1 =>
    cases hq.ack other
    case inl he => rw [he]; exact h.2.1
    case inr he =>
      obtain ⟨root, request, hv, rfl, ha⟩ := he
      rw [ha]
      exact fun heq => h.2.2 root _ hv (congrArg some heq)
  case refine_2 =>
    by_cases ho : other = cpu
    case pos =>
      subst ho
      rw [Function.update_self] at hv
      cases hq.marking root step generation hv hs
      case inl he => exact h.1 he.symm
      case inr he =>
        have ⟨root', step', hv', hs'⟩ := he
        exact h.2.2 root' step' hv' hs'
    case neg =>
      rw [Function.update_of_ne ho] at hv
      exact h.2.2 root step hv hs

theorem Inv.quiet (h : state.Inv platform values) (hq : Quiet state state' cpu (values cpu) g)
    (hk : Keeps state values state' (update values cpu g)) (hr : state'.Roots cpu g)
    (ho : state'.activeAddressSpace cpu ≠ 0 → cpu ∈ platform.onlineCpus)
    (hb : state'.Obligation platform (update values cpu g) cpu g) :
    state'.Inv platform (update values cpu g) where
  roots other := by
    by_cases heq : other = cpu
    case pos => simpa [heq] using hr
    case neg =>
      have ⟨ha, hs⟩ := hq.others other heq
      have := h.roots other
      rw [Function.update_of_ne heq]
      cases hv : values other <;> simp only [hv, Roots, ha, hs] at this ⊢ <;> exact this
  online other hne := by
    by_cases heq : other = cpu
    case pos => exact heq ▸ ho (heq ▸ hne)
    case neg => exact h.online other ((hq.others other heq).1 ▸ hne)
  old other := by
    have ⟨hreq, hack, hmark⟩ := h.old other
    refine ⟨by rw [hq.request, hq.generation]; exact hreq, ?_, fun root step request hv hs => ?_⟩
    case refine_1 =>
      rw [hq.generation]
      cases hq.ack other
      case inl he => rw [he]; exact hack
      case inr he =>
        obtain ⟨root, request, hv, rfl, ha⟩ := he
        rw [ha]
        exact hmark root _ request hv rfl
    case refine_2 =>
      rw [hq.generation]
      by_cases heq : other = cpu
      case pos =>
        subst heq
        rw [Function.update_self] at hv
        cases hq.marking root step request hv hs
        case inl he => exact he ▸ hreq
        case inr he =>
          have ⟨root', step', hv', hs'⟩ := he
          exact hmark root' step' request hv' hs'
      case neg =>
        rw [Function.update_of_ne heq] at hv
        exact hmark root step request hv hs
  fresh other root version generation remaining hv := by
    by_cases heq : other = cpu
    case pos =>
      rw [heq, Function.update_self] at hv
      exact absurd (hv ▸ hq.requesting) nofun
    case neg =>
      rw [Function.update_of_ne heq] at hv
      have ⟨hle, hn, hf⟩ := h.fresh other root version generation remaining hv
      exact ⟨hq.generation ▸ hle, hn, fun c hc => hq.fresh (hf c hc)⟩
  distinct c c' generation hv hv' := by
    have hne {c} (hv : (update values cpu g c).generation? = some generation) : c ≠ cpu := by
      rintro rfl
      rw [Function.update_self, hq.requesting] at hv
      cases hv
    rw [Function.update_of_ne (hne hv)] at hv
    rw [Function.update_of_ne (hne hv')] at hv'
    exact h.distinct c c' generation hv hv'
  obligation other := by
    by_cases heq : other = cpu
    case pos => simpa [heq] using hb
    case neg =>
      rw [Function.update_of_ne heq]
      exact hk.obligation (h.obligation other)
  completed root version hroot hm := by
    have ⟨hle, hs⟩ := h.completed root version hroot (hq.completed ▸ hm)
    exact ⟨Nat.le_trans hle (hk.edits root), fun c hc => hk.settled' hroot hle (hs c hc)⟩

-- A step of a processor that concerns no other one.
theorem Keeps.of_update (he : state'.edits = state.edits)
    (hc : ∀ other, other ≠ cpu → state'.cached other = state.cached other)
    (hr : state'.tlbRequest = state.tlbRequest)
    (ha : ∀ other, other ≠ cpu → state'.tlbAck other = state.tlbAck other)
    (hs : ∀ other, other ≠ cpu → state'.activeAddressSpace other = state.activeAddressSpace other)
    (hk : state'.cached cpu = [] ∨ state'.cached cpu = state.cached cpu ∧
      (state.Pending values cpu → state'.Pending (update values cpu g) cpu ∧
        ∀ root, root ≠ 0 → state.Away values cpu root → state'.Away (update values cpu g) cpu root)) :
    Keeps state values state' (update values cpu g) := by
  have hempty (he : state'.cached cpu = []) (root version : Nat) : state'.Clean cpu root version :=
    fun _ hm => by simp [he] at hm
  refine .of_same cpu (fun root => Nat.le_of_eq (congrFun he root).symm) (fun c hne => ?_) (fun root version _ hclean => ?_)
    (fun hp => ?_) fun root hroot hp haway => ?_
  case refine_1 =>
    exact ⟨hc c hne, by rw [hr], ha c hne, hs c hne, fun _ _ => by rw [Function.update_of_ne hne]⟩
  case refine_2 =>
    cases hk
    case inl he => exact hempty he root version
    case inr hk => exact fun cachedAt hm => hclean cachedAt (hk.1 ▸ hm)
  case refine_3 => exact hk.imp hempty fun hk => (hk.2 hp).1
  case refine_4 => exact hk.imp (hempty · root) fun hk => (hk.2 hp).2 root hroot haway

-- `mark_current_address_space`, step by step.

theorem Inv.publish (h : state.Inv platform values) (hg : values cpu = .entering root)
    (hon : cpu ∈ platform.onlineCpus) :
    Inv platform { state with activeAddressSpace := update state.activeAddressSpace cpu root }
      (update values cpu (.marking root .published)) := by
  have hroots := h.roots cpu
  rw [hg] at hroots
  refine h.quiet ⟨fun c hc => ⟨by simp [hc], rfl⟩, rfl, rfl, fun _ => .inl rfl, ?_, rfl, rfl⟩
    (.of_update rfl (fun _ _ => rfl) rfl (fun _ _ => rfl) (fun c hc => by simp [hc]) (.inr ⟨rfl, fun hp => ?_⟩))
    ⟨by simp, hroots.2⟩ (fun _ => hon) trivial
  case refine_1 =>
    intro _ _ _ hm hs
    cases hm
    cases hs
  case refine_2 =>
    refine ⟨⟨hp.1, by simp⟩, fun root' _ _ => ?_⟩
    by_cases hr : root' = root
    case pos => exact .inr ⟨.published, by simp [hr], trivial⟩
    case neg => exact .inl (by simpa using Ne.symm hr)

theorem Inv.loadRequest (h : state.Inv platform values) (hg : values cpu = .marking root .published) :
    state.Inv platform (update values cpu (.marking root (.loaded (state.tlbRequest cpu)))) := by
  have hroots := h.roots cpu
  rw [hg] at hroots
  refine h.quiet ⟨fun _ _ => ⟨rfl, rfl⟩, rfl, rfl, fun _ => .inl rfl, ?_, rfl, rfl⟩
    (.of_update rfl (fun _ _ => rfl) rfl (fun _ _ => rfl) (fun _ _ => rfl) (.inr ⟨rfl, fun hp => ?_⟩))
    hroots (h.online cpu) trivial
  case refine_1 =>
    intro _ _ request hm hs
    cases hm
    exact .inl (Option.some.inj hs).symm
  case refine_2 =>
    refine ⟨⟨hp.1, by simp⟩, fun root' _ haway => haway.imp_right fun ⟨step, hv, _⟩ => ?_⟩
    rw [hg] at hv
    cases hv
    exact ⟨_, Function.update_self .., hp.1.symm⟩

theorem Inv.loadAck {request : Nat} (h : state.Inv platform values)
    (hg : values cpu = .marking root (.loaded request)) :
    state.Inv platform (update values cpu
      (if state.tlbAck cpu ≠ request then .marking root (.stale request) else .activating root)) := by
  have hroots := h.roots cpu
  rw [hg] at hroots
  split
  case isTrue hne =>
    refine h.quiet ⟨fun _ _ => ⟨rfl, rfl⟩, rfl, rfl, fun _ => .inl rfl, ?_, rfl, rfl⟩
      (.of_update rfl (fun _ _ => rfl) rfl (fun _ _ => rfl) (fun _ _ => rfl) (.inr ⟨rfl, fun hp => ?_⟩))
      hroots (h.online cpu) trivial
    case refine_1 =>
      intro _ _ request' hm hs
      cases hm
      exact .inr ⟨_, _, hg, hs⟩
    case refine_2 =>
      refine ⟨⟨hp.1, by simp⟩, fun root' _ haway => haway.imp_right fun ⟨step, hv, _⟩ => ?_⟩
      rw [hg] at hv
      cases hv
      exact ⟨_, Function.update_self .., trivial⟩
  case isFalse heq =>
    refine h.quiet ⟨fun _ _ => ⟨rfl, rfl⟩, rfl, rfl, fun _ => .inl rfl, by simp, rfl, rfl⟩
      (.of_update rfl (fun _ _ => rfl) rfl (fun _ _ => rfl) (fun _ _ => rfl) (.inr ⟨rfl, fun hp => ?_⟩))
      hroots (h.online cpu) trivial
    refine ⟨⟨hp.1, by simp⟩, fun root' _ haway => haway.imp_right fun ⟨step, hv, hw⟩ => ?_⟩
    rw [hg] at hv
    cases hv
    exact absurd hw heq

theorem Inv.flushStale {request : Nat} (h : state.Inv platform values)
    (hg : values cpu = .marking root (.stale request)) :
    Inv platform { state with cached := update state.cached cpu [] }
      (update values cpu (.marking root (.flushed request))) := by
  have hroots := h.roots cpu
  rw [hg] at hroots
  refine h.quiet ⟨fun _ _ => ⟨rfl, rfl⟩, rfl, rfl, fun _ => .inl rfl, ?_, rfl, rfl⟩
    (.of_update rfl (fun c hc => by simp [hc]) rfl (fun _ _ => rfl) (fun _ _ => rfl) (.inl (by simp)))
    hroots (h.online cpu) trivial
  intro _ _ request' hm hs
  cases hm
  exact .inr ⟨_, _, hg, hs⟩

theorem Inv.storeAck {request : Nat} (h : state.Inv platform values)
    (hg : values cpu = .marking root (.flushed request)) :
    Inv platform { state with tlbAck := update state.tlbAck cpu request }
      (update values cpu (.activating root)) := by
  have hroots := h.roots cpu
  rw [hg] at hroots
  refine h.quiet ⟨fun _ _ => ⟨rfl, rfl⟩, rfl, rfl, fun c => ?_, by simp, rfl, rfl⟩
    (.of_update rfl (fun _ _ => rfl) rfl (fun c hc => by simp [hc]) (fun _ _ => rfl) (.inr ⟨rfl, fun hp => ?_⟩))
    hroots (h.online cpu) trivial
  case refine_1 =>
    by_cases hc : c = cpu
    case pos => exact .inr ⟨root, request, hg, hc, by simp⟩
    case neg => exact .inl (by simp [hc])
  case refine_2 =>
    refine ⟨⟨by simpa using hp.2 root request hg, by simp⟩,
      fun root' _ haway => haway.imp_right fun ⟨step, hv, hw⟩ => ?_⟩
    rw [hg] at hv
    cases hv
    exact absurd hw not_false

theorem Inv.storeSatp (h : state.Inv platform values) (hg : values cpu = .activating root) :
    Inv platform { state with satp := update state.satp cpu root } (update values cpu .idle) := by
  have hroots := h.roots cpu
  rw [hg] at hroots
  refine h.quiet ⟨fun c hc => ⟨rfl, by simp [hc]⟩, rfl, rfl, fun _ => .inl rfl, by simp, rfl, rfl⟩
    (.of_update rfl (fun _ _ => rfl) rfl (fun _ _ => rfl) (fun _ _ => rfl) (.inr ⟨rfl, fun hp => ?_⟩))
    ?_ (h.online cpu) trivial
  case refine_1 => exact ⟨⟨hp.1, by simp⟩, fun _ _ haway => haway.imp_right fun ⟨_, hv, _⟩ => by simp [hg] at hv⟩
  case refine_2 => simp [Roots, hroots.1]

theorem Inv.clearActive (h : state.Inv platform values) :
    Inv platform { state with activeAddressSpace := update state.activeAddressSpace cpu 0 }
      (update values cpu .restoring) := by
  refine h.quiet ⟨fun c hc => ⟨by simp [hc], rfl⟩, rfl, rfl, fun _ => .inl rfl, by simp, rfl, rfl⟩
    (.of_update rfl (fun _ _ => rfl) rfl (fun _ _ => rfl) (fun c hc => by simp [hc]) (.inr ⟨rfl, fun hp => ?_⟩))
    (by simp [Roots]) (by simp) trivial
  exact ⟨⟨hp.1, by simp⟩, fun root hroot _ => .inl (by simpa using hroot.symm)⟩

theorem Inv.restoreSatp (h : state.Inv platform values) (hg : values cpu = .restoring) :
    Inv platform { state with satp := update state.satp cpu 0 } (update values cpu .idle) := by
  have hroots := h.roots cpu
  rw [hg] at hroots
  refine h.quiet ⟨fun c hc => ⟨rfl, by simp [hc]⟩, rfl, rfl, fun _ => .inl rfl, by simp, rfl, rfl⟩
    (.of_update rfl (fun _ _ => rfl) rfl (fun _ _ => rfl) (fun _ _ => rfl) (.inr ⟨rfl, fun hp => ?_⟩))
    ?_ (h.online cpu) trivial
  case refine_1 => exact ⟨⟨hp.1, by simp⟩, fun _ _ haway => haway.imp_right fun ⟨_, hv, _⟩ => by simp [hg] at hv⟩
  case refine_2 =>
    simp only [Roots] at hroots ⊢
    simp [hroots]

-- `commit_page_table_retirement` and `tlb_shootdown`, step by step.

-- The phase of a processor that does not switch its root may change as long as its roots are the same.
theorem Inv.advance (h : state.Inv platform values) (hv : ∀ root step, values cpu ≠ .marking root step)
    (hg : ∀ root step, g ≠ .marking root step)
    (hn : g.generation? = none) (he : ∀ root, state.edits root ≤ state'.edits root)
    (hf : ∀ c, state'.cached c = [] ∨ state'.cached c = state.cached c)
    (hs : state' = { state with edits := state'.edits, cached := state'.cached })
    (hr : state.Roots cpu g)
    (hb : Keeps state values state' (update values cpu g) →
      state'.Obligation platform (update values cpu g) cpu g) :
    state'.Inv platform (update values cpu g) := by
  have hk : Keeps state values state' (update values cpu g) := .of_flush he fun c => (hf c).imp_right fun hc =>
    ⟨hc, by rw [hs], by rw [hs], by rw [hs], fun root step => by
      by_cases hc : c = cpu
      case pos => simp [hc, hg, hv]
      case neg => rw [Function.update_of_ne hc]⟩
  refine h.quiet ⟨fun _ _ => ?_, ?_, ?_, fun _ => .inl ?_, fun _ _ _ hm => absurd hm (hg _ _), hn, ?_⟩ hk
    ?_ ?_ (hb hk)
  all_goals rw [hs]
  case refine_1 => exact ⟨rfl, rfl⟩
  case refine_6 => cases g <;> exact hr
  case refine_7 => exact h.online cpu

theorem Inv.edit (h : state.Inv platform values) (hg : values cpu = .idle) (root : Nat) :
    Inv platform { state with edits := update state.edits root (state.edits root + 1) }
      (update values cpu (.edited root (state.edits root + 1))) := by
  have hroots := h.roots cpu
  rw [hg] at hroots
  refine h.advance (by simp [hg]) (by simp) rfl (fun root' => ?_) (fun _ => .inr rfl) rfl hroots fun _ => ?_
  case refine_1 =>
    by_cases hr : root' = root
    case pos => simp [hr]
    case neg => simp [hr]
  case refine_2 => simp [Obligation]

theorem Inv.flushEdited {version : Nat} (h : state.Inv platform values)
    (hg : values cpu = .edited root version) :
    Inv platform { state with cached := update state.cached cpu [] }
      (update values cpu (.flushed root version)) := by
  have hroots := h.roots cpu
  have hb := h.obligation cpu
  rw [hg] at hroots hb
  refine h.advance (by simp [hg]) (by simp) rfl (fun _ => Nat.le_refl _) (fun c => ?_) rfl hroots fun _ => ?_
  case refine_1 =>
    by_cases hc : c = cpu
    case pos => exact .inl (by simp [hc])
    case neg => exact .inr (by simp [hc])
  case refine_2 => exact ⟨hb, fun _ hm => by simp at hm⟩

theorem Inv.flushIdle (h : state.Inv platform values) (hg : values cpu = .idle) :
    Inv platform { state with cached := update state.cached cpu [] } (update values cpu .idle) := by
  have hroots := h.roots cpu
  rw [hg] at hroots
  refine h.advance (by simp [hg]) (by simp) rfl (fun _ => Nat.le_refl _) (fun c => ?_) rfl hroots
    fun _ => trivial
  by_cases hc : c = cpu
  case pos => exact .inl (by simp [hc])
  case neg => exact .inr (by simp [hc])

-- The phases of other processors, and of the one that requests flushes before and after.
theorem Roots.update {values : Nat → TlbPhase} (h : ∀ c, state.Roots c (values c)) (hr : state.Roots cpu g)
    (other : Nat) : state.Roots other (update values cpu g other) := by
  by_cases ho : other = cpu
  case pos => simpa [ho] using hr
  case neg =>
    rw [Function.update_of_ne ho]
    exact h other

theorem marking_update (hv : ∀ root step, values cpu ≠ .marking root step)
    (hg : ∀ root step, g ≠ .marking root step) (other root : Nat) (step : MarkStep) :
    update values cpu g other = .marking root step ↔ values other = .marking root step := by
  by_cases ho : other = cpu
  case pos => simp [ho, hg, hv]
  case neg => rw [Function.update_of_ne ho]

theorem Fresh.update {generation : Nat} (hv : ∀ root step, values cpu ≠ .marking root step)
    (hg : ∀ root step, g ≠ .marking root step) (h : state.Fresh values generation other) :
    state.Fresh (update values cpu g) generation other :=
  ⟨h.1, h.2.1, fun root step hm => h.2.2 root step ((marking_update hv hg other root step).mp hm)⟩

theorem Inv.nextGeneration {version : Nat} (h : state.Inv platform values)
    (hg : values cpu = .flushed root version) :
    Inv platform { state with tlbGeneration := state.tlbGeneration + 1 }
      (update values cpu (.requesting root version (state.tlbGeneration + 1)
        (platform.onlineCpus.filter (· ≠ cpu)))) := by
  have hroots := h.roots cpu
  have hb := h.obligation cpu
  rw [hg] at hroots hb
  have hv : ∀ root step, values cpu ≠ .marking root step := by simp [hg]
  have hk : Keeps state values { state with tlbGeneration := state.tlbGeneration + 1 }
      (Function.update values cpu (.requesting root version (state.tlbGeneration + 1)
        (platform.onlineCpus.filter (· ≠ cpu)))) :=
    .of_flush (fun _ => Nat.le_refl _) fun c => .inr ⟨rfl, rfl, rfl, rfl, marking_update hv (by simp) c⟩
  -- No processor has seen the generation.
  have hnew (c : Nat) : state.Fresh values (state.tlbGeneration + 1) c := by
    have ⟨hr, ha, hm⟩ := h.old c
    refine ⟨by omega, by omega, fun root step hv hs => ?_⟩
    have := hm root step _ hv hs
    omega
  have hlt {c generation : Nat} (hv : (values c).generation? = some generation) :
      generation < state.tlbGeneration + 1 := by
    cases hp : values c <;> simp only [hp, TlbPhase.generation?, reduceCtorEq] at hv
    cases hv
    exact Nat.lt_succ_of_le (h.fresh c _ _ _ _ hp).1
  exact {
    roots := Roots.update h.roots hroots
    online := h.online
    old := fun c => by
      have ⟨hr, ha, hm⟩ := h.old c
      refine ⟨Nat.le_succ_of_le hr, Nat.le_succ_of_le ha, fun root step request hv' hs => ?_⟩
      exact Nat.le_succ_of_le (hm root step request ((marking_update hv (by simp) c root step).mp hv') hs)
    fresh := fun c root' version' generation remaining hv' => by
      by_cases hc : c = cpu
      case pos =>
        rw [hc, Function.update_self] at hv'
        cases hv'
        exact ⟨Nat.le_refl _, platform.online_nodup.filter _, fun other _ => (hnew other).update hv (by simp)⟩
      case neg =>
        rw [Function.update_of_ne hc] at hv'
        have ⟨hle, hn, hf⟩ := h.fresh c root' version' generation remaining hv'
        exact ⟨Nat.le_succ_of_le hle, hn, fun other ho => (hf other ho).update hv (by simp)⟩
    distinct := fun c c' generation h₁ h₂ => by
      by_cases hc : c = cpu
      case pos =>
        by_cases hc' : c' = cpu
        case pos => exact hc.trans hc'.symm
        case neg =>
          rw [hc, Function.update_self] at h₁
          rw [Function.update_of_ne hc'] at h₂
          exact absurd (Option.some.inj h₁) (Nat.ne_of_gt (hlt h₂))
      case neg =>
        by_cases hc' : c' = cpu
        case pos =>
          rw [hc', Function.update_self] at h₂
          rw [Function.update_of_ne hc] at h₁
          exact absurd (Option.some.inj h₂) (Nat.ne_of_gt (hlt h₁))
        case neg =>
          rw [Function.update_of_ne hc] at h₁
          rw [Function.update_of_ne hc'] at h₂
          exact h.distinct c c' generation h₁ h₂
    obligation := fun c => by
      by_cases hc : c = cpu
      case pos =>
        rw [hc, Function.update_self]
        refine ⟨hb.1, hb.2, fun other ho hn => .inl ?_⟩
        have : other = cpu := by simpa [ho] using hn
        exact this ▸ hb.2
      case neg =>
        rw [Function.update_of_ne hc]
        exact hk.obligation (h.obligation c)
    completed := fun root version hroot hm => by
      have ⟨hle, hs⟩ := h.completed root version hroot hm
      exact ⟨hle, fun c hc => hk.settled' hroot hle (hs c hc)⟩
  }

theorem Inv.storeRequest {version generation target : Nat} {remaining : List Nat}
    (h : state.Inv platform values) (hg : values cpu = .requesting root version generation (target :: remaining)) :
    Inv platform { state with tlbRequest := update state.tlbRequest target generation }
      (update values cpu (.requesting root version generation remaining)) := by
  have hroots := h.roots cpu
  have hb := h.obligation cpu
  have ⟨hle, hnodup, hfresh⟩ := h.fresh cpu _ _ _ _ hg
  rw [hg] at hroots hb
  have hv : ∀ root step, values cpu ≠ .marking root step := by simp [hg]
  have ⟨_, hack, hmark⟩ := hfresh target (.head _)
  have hpending : Pending { state with tlbRequest := Function.update state.tlbRequest target generation }
      (Function.update values cpu (.requesting root version generation remaining)) target := by
    refine ⟨by simpa using hack.symm, fun root' request hv' => ?_⟩
    rw [marking_update hv (by simp)] at hv'
    simpa using fun he => hmark root' _ hv' (congrArg some he.symm)
  have hk : Keeps state values { state with tlbRequest := Function.update state.tlbRequest target generation }
      (Function.update values cpu (.requesting root version generation remaining)) := by
    refine .of_same target (fun _ => Nat.le_refl _) (fun c hc => ?_) (fun _ _ _ => id) (fun _ => .inr hpending)
      fun root' _ _ haway => .inr (haway.imp_right fun ⟨step, hm, hw⟩ => ?_)
    case refine_1 => exact ⟨rfl, by simp [hc], rfl, rfl, marking_update hv (by simp) c⟩
    case refine_2 => exact ⟨step, (marking_update hv (by simp) target root' step).mpr hm, hw⟩
  exact {
    roots := Roots.update h.roots hroots
    online := h.online
    old := fun c => by
      have ⟨hr, ha, hm⟩ := h.old c
      refine ⟨?_, ha, fun root step request hv' hs => ?_⟩
      case refine_1 =>
        by_cases hc : c = target
        case pos => simpa [hc] using hle
        case neg => simpa [hc] using hr
      case refine_2 => exact hm root step request ((marking_update hv (by simp) c root step).mp hv') hs
    fresh := fun c root' version' generation' remaining' hv' => by
      by_cases hc : c = cpu
      case pos =>
        rw [hc, Function.update_self] at hv'
        cases hv'
        refine ⟨hle, (List.nodup_cons.mp hnodup).2, fun other ho => ?_⟩
        have ht : other ≠ target := fun he => (List.nodup_cons.mp hnodup).1 (he ▸ ho)
        have hf := (hfresh other (.tail _ ho)).update hv (g := .requesting root version generation remaining)
          (by simp)
        exact ⟨by simpa [ht] using hf.1, hf.2⟩
      case neg =>
        rw [Function.update_of_ne hc] at hv'
        have hne : generation ≠ generation' := fun he =>
          hc (h.distinct c cpu generation (by rw [hv', he]; rfl) (by rw [hg]; rfl))
        have ⟨hle', hn, hf⟩ := h.fresh c root' version' generation' remaining' hv'
        refine ⟨hle', hn, fun other ho => ?_⟩
        have hf := (hf other ho).update hv (g := .requesting root version generation remaining) (by simp)
        refine ⟨?_, hf.2⟩
        by_cases ht : other = target
        case pos => simpa [ht] using hne
        case neg => simpa [ht] using hf.1
    distinct := fun c c' generation' h₁ h₂ => by
      have hgen (c : Nat) : (Function.update values cpu (.requesting root version generation remaining)
          c).generation? = (values c).generation? := by
        by_cases hc : c = cpu
        case pos => rw [hc, Function.update_self, hg]; rfl
        case neg => rw [Function.update_of_ne hc]
      exact h.distinct c c' generation' (hgen c ▸ h₁) (hgen c' ▸ h₂)
    obligation := fun c => by
      by_cases hc : c = cpu
      case pos =>
        rw [hc, Function.update_self]
        refine ⟨hb.1, hb.2.1, fun other ho hn => ?_⟩
        by_cases ht : other = target
        case pos =>
          subst ht
          exact .inr hpending
        case neg => exact hk.requested' hb.1 (hb.2.2 other ho (by simp [ht, hn]))
      case neg =>
        rw [Function.update_of_ne hc]
        exact hk.obligation (h.obligation c)
    completed := fun root version hroot hm => by
      have ⟨hle, hs⟩ := h.completed root version hroot hm
      exact ⟨hle, fun c hc => hk.settled' hroot hle (hs c hc)⟩
  }

-- Once all flushes are requested, the targets are still to be settled.
theorem Inv.settle {version generation : Nat} (h : state.Inv platform values) (hroot : root ≠ 0)
    (hg : values cpu = .requesting root version generation []) :
    state.Inv platform (update values cpu (.settling root version (platform.onlineCpus.filter (· ≠ cpu)))) := by
  have hroots := h.roots cpu
  have hb := h.obligation cpu
  rw [hg] at hroots hb
  refine h.advance (by simp [hg]) (by simp) rfl (fun _ => Nat.le_refl _) (fun _ => .inr rfl) rfl hroots fun hk => ?_
  have hrequested : ∀ other ∈ platform.onlineCpus, state.Requested values other root version :=
    fun other ho => hb.2.2 other ho List.not_mem_nil
  refine ⟨hroot, hb.1, fun other ho => hk.requested' hb.1 (hrequested other ho), fun other ho hn => .inl ?_⟩
  have : other = cpu := by simpa [ho] using hn
  exact this ▸ hk.clean _ _ _ hb.1 hb.2.1

-- A target that has not published the root when it is looked at flushes before it runs the root.
theorem Inv.sample {version target : Nat} {remaining : List Nat} (h : state.Inv platform values)
    (hg : values cpu = .settling root version remaining) (ha : state.activeAddressSpace target ≠ root) :
    state.Inv platform (update values cpu (.settling root version (remaining.filter (· ≠ target)))) := by
  have hroots := h.roots cpu
  have hb := h.obligation cpu
  rw [hg] at hroots hb
  have ⟨hroot, hv, hr, hs⟩ := hb
  refine h.advance (by simp [hg]) (by simp) rfl (fun _ => Nat.le_refl _) (fun _ => .inr rfl) rfl hroots fun hk => ?_
  refine ⟨hroot, hv, fun other ho => hk.requested' hv (hr other ho), fun other ho hn => hk.settled' hroot hv ?_⟩
  by_cases ht : other = target
  case pos => exact (hr other ho).imp_right fun hp => ⟨hp, .inl (ht ▸ ha)⟩
  case neg => exact hs other ho fun hm => hn (by simp [hm, ht])

theorem Inv.fence {version hart : Nat} {remaining : List Nat} (h : state.Inv platform values)
    (hg : values cpu = .settling root version remaining) :
    Inv platform { state with
        cached := fun cpu => if platform.cpuHardwareId cpu = some hart then [] else state.cached cpu }
      (update values cpu (.settling root version
        (remaining.filter (platform.cpuHardwareId · ≠ some hart)))) := by
  have hroots := h.roots cpu
  have hb := h.obligation cpu
  rw [hg] at hroots hb
  have ⟨hroot, hv, hr, hs⟩ := hb
  refine h.advance (by simp [hg]) (by simp) rfl (fun _ => Nat.le_refl _) (fun c => ?_) rfl hroots fun hk => ?_
  case refine_1 =>
    by_cases hc : platform.cpuHardwareId c = some hart
    case pos => exact .inl (if_pos hc)
    case neg => exact .inr (if_neg hc)
  case refine_2 =>
    refine ⟨hroot, hv, fun other ho => hk.requested' hv (hr other ho), fun other ho hn => ?_⟩
    by_cases hc : platform.cpuHardwareId other = some hart
    case pos => exact .inl fun _ hm => by simp [hc] at hm
    case neg => exact hk.settled' hroot hv (hs other ho fun hm => hn (by simp [hm, hc]))

theorem Inv.complete {version : Nat} (h : state.Inv platform values)
    (hg : values cpu = .settling root version [] ∨ root = 0 ∧ values cpu = .flushed root version) :
    Inv platform { state with completed := (root, version) :: state.completed }
      (update values cpu .idle) := by
  have hroots := h.roots cpu
  have hb := h.obligation cpu
  have hcompleted : Inv platform { state with completed := (root, version) :: state.completed } values :=
    { h with
      completed := fun root' version' hroot' hm => by
        cases List.mem_cons.mp hm
        case inl he =>
          cases he
          cases hg
          case inl hg =>
            rw [hg] at hb
            exact ⟨hb.2.1, fun c hc => hb.2.2.2 c hc List.not_mem_nil⟩
          case inr hg => exact absurd hg.1 hroot'
        case inr hm => exact h.completed root' version' hroot' hm }
  have hmarking (root' : Nat) (step : MarkStep) : values cpu ≠ .marking root' step := by
    cases hg
    case inl hg => simp [hg]
    case inr hg => simp [hg.2]
  refine hcompleted.advance hmarking (by simp) rfl (fun _ => Nat.le_refl _) (fun _ => .inr rfl) rfl ?_
    fun _ => trivial
  cases hg
  case inl hg =>
    rw [hg] at hroots
    exact hroots
  case inr hg =>
    rw [hg.2] at hroots
    exact hroots

-- A translation that is cached now is not from before any edit so far.
theorem Inv.walk (h : state.Inv platform values) (hg : values cpu = .idle) (walker : Nat) :
    Inv platform { state with
        cached := update state.cached walker
          ((state.satp walker, state.edits (state.satp walker)) :: state.cached walker) }
      (update values cpu .idle) := by
  have hroots := h.roots cpu
  rw [hg] at hroots
  have hk : Keeps state values { state with
        cached := Function.update state.cached walker
          ((state.satp walker, state.edits (state.satp walker)) :: state.cached walker) } values := by
    refine .of_same walker (fun _ => Nat.le_refl _) (fun c hc => ?_) (fun root version hv hclean cachedAt hm => ?_)
      .inr fun _ _ _ => .inr
    case refine_1 => exact ⟨by simp [hc], rfl, rfl, rfl, fun _ _ => .rfl⟩
    case refine_2 =>
      simp only [Function.update_self, List.mem_cons, Prod.mk.injEq] at hm
      cases hm
      case inl he => rw [he.2, ← he.1]; exact hv
      case inr hm => exact hclean cachedAt hm
  refine h.quiet ⟨fun _ _ => ⟨rfl, rfl⟩, rfl, rfl, fun _ => .inl rfl, by simp, rfl, rfl⟩ ?_ hroots (h.online cpu) trivial
  rw [← hg, Function.update_eq_self]
  exact hk

end TlbState

open TlbState Platform TlbInstr

def tlbProtocol (platform : Platform) : Protocol (TlbInstr.machine platform) TlbPhase where
  inv := TlbState.Inv platform

variable {platform : Platform} {cpu root version : Nat}

theorem markCurrentAddressSpace_wp (hon : cpu ∈ platform.onlineCpus) :
    (tlbProtocol platform).wp cpu (markCurrentAddressSpace root) (fun _ g => g = .activating root)
      (.entering root) := by
  refine .bind (.total (fun _ => rfl) trivial fun state values hinv hg _ => ⟨_, hinv.publish hg hon, ?_⟩)
  refine .bind (.total (fun _ => rfl) trivial fun state values hinv hg _ => ⟨_, hinv.loadRequest hg, ?_⟩)
  refine .bind (.total (fun _ => rfl) trivial fun state values hinv hg _ => ⟨_, hinv.loadAck hg, ?_⟩)
  dsimp only
  split
  case isTrue =>
    refine .bind (.total (fun _ => rfl) trivial fun state values hinv hg _ => ⟨_, hinv.flushStale hg, ?_⟩)
    exact .total (fun _ => rfl) trivial fun state values hinv hg _ => ⟨_, hinv.storeAck hg, rfl⟩
  case isFalse => rfl

theorem activateMemorySetIfNeeded_wp (hroot : root ≠ 0) (hon : cpu ∈ platform.onlineCpus) :
    (tlbProtocol platform).wp cpu (activateMemorySetIfNeeded cpu root) (fun _ g => g = .idle) .idle := by
  refine .bind (.total (fun _ => rfl) trivial fun state values hinv hg _ =>
    ⟨if state.activeAddressSpace cpu = root then .idle else .entering root, ?_, ?_⟩)
  case refine_1 =>
    have hroots := hinv.roots cpu
    rw [hg] at hroots
    split
    case isTrue =>
      rw [← hg, Function.update_eq_self]
      exact hinv
    case isFalse ha =>
      refine hinv.advance (by simp [hg]) (by simp) rfl (fun _ => Nat.le_refl _) (fun _ => .inr rfl) rfl
        ⟨hroots, ?_⟩ fun _ => trivial
      exact fun hs => ha (hroots.symm.trans hs)
  case refine_2 =>
    dsimp only
    by_cases ha : state.activeAddressSpace cpu = root
    case pos =>
      simp only [ha, hroot, ne_eq, not_false_eq_true, decide_true, Bool.and_self, if_true]
      exact rfl
    case neg =>
      simp only [ha, decide_false, Bool.and_false, Bool.false_eq_true, if_false]
      refine .bind ((markCurrentAddressSpace_wp hon).mono fun _ g hg => ?_)
      subst hg
      refine .bind (.total (fun _ => rfl) trivial fun state values hinv hg _ => ⟨.activating root, ?_, ?_⟩)
      case refine_1 =>
        rw [← hg, Function.update_eq_self]
        exact hinv
      case refine_2 =>
        have hroots := hinv.roots cpu
        rw [hg] at hroots
        dsimp only
        rw [if_pos hroots.2]
        exact .total (fun _ => rfl) trivial fun state values hinv hg _ => ⟨_, hinv.storeSatp hg, rfl⟩

theorem restoreKernelPageTable_wp :
    (tlbProtocol platform).wp cpu platform.restoreKernelPageTable (fun _ g => g = .idle) .idle := by
  refine .bind (.total (fun _ => rfl) trivial fun state values hinv hg _ => ⟨_, hinv.clearActive, ?_⟩)
  refine .bind (.total (fun _ => rfl) trivial fun state values hinv hg _ =>
    ⟨if state.satp cpu ≠ 0 then .restoring else .idle, ?_, ?_⟩)
  case refine_1 =>
    split
    case isTrue =>
      rw [← hg, Function.update_eq_self]
      exact hinv
    case isFalse hs =>
      have hroots := hinv.roots cpu
      rw [hg] at hroots
      exact hinv.advance (by simp [hg]) (by simp) rfl (fun _ => Nat.le_refl _) (fun _ => .inr rfl) rfl
        ((of_not_not hs).trans hroots.symm) fun _ => trivial
  case refine_2 =>
    dsimp only
    split
    case isTrue =>
      refine .bind (.total (fun _ => rfl) trivial fun state values hinv hg _ => ⟨_, hinv.restoreSatp hg, ?_⟩)
      split
      case isTrue => exact .total (fun _ => rfl) trivial fun state values hinv hg _ => ⟨_, hinv.flushIdle hg, rfl⟩
      case isFalse => rfl
    case isFalse => rfl

-- The phase of a processor that has yet to request flushes. With the last one, it begins to settle the targets.
def TlbPhase.request (platform : Platform) (cpu root version generation : Nat) : List Nat → TlbPhase
  | []        => .settling root version (platform.onlineCpus.filter (· ≠ cpu))
  | remaining => .requesting root version generation remaining

theorem TlbState.Inv.request {state : TlbState} {values : Nat → TlbPhase} {generation : Nat}
    {remaining : List Nat} (hroot : root ≠ 0)
    (h : state.Inv platform (update values cpu (.requesting root version generation remaining))) :
    state.Inv platform (update values cpu (.request platform cpu root version generation remaining)) := by
  cases remaining
  case nil =>
    have := h.settle hroot (Function.update_self ..)
    rwa [Function.update_idem] at this
  case cons => exact h

theorem storeRequests_wp {generation : Nat} (hroot : root ≠ 0) (targets : List Nat) :
    (tlbProtocol platform).wp cpu (storeRequests generation targets)
      (fun _ g => g = .settling root version (platform.onlineCpus.filter (· ≠ cpu)))
      (.request platform cpu root version generation targets) := by
  induction targets
  case nil => rfl
  case cons target targets hi =>
    exact .bind (.total (fun _ => rfl) trivial fun state values hinv hg _ =>
      ⟨_, (hinv.storeRequest hg).request hroot, hi⟩)

-- The targets that are left are among those that had published the root.
theorem activeTargets_wp (targets remaining : List Nat) :
    (tlbProtocol platform).wp cpu (activeTargets root targets)
      (fun active g => (∀ target ∈ active, target ∈ targets) ∧ ∃ remaining', g = .settling root version remaining' ∧
        ∀ target ∈ remaining', target ∈ remaining ∧ (target ∈ targets → target ∈ active))
      (.settling root version remaining) := by
  induction targets generalizing remaining
  case nil => exact ⟨nofun, remaining, rfl, fun _ hm => ⟨hm, nofun⟩⟩
  case cons target targets hi =>
    refine .bind (.total (fun _ => rfl) trivial fun state values hinv hg _ => ?_)
    by_cases ha : state.activeAddressSpace target = root
    case pos =>
      refine ⟨.settling root version remaining, by rw [← hg, Function.update_eq_self]; exact hinv, ?_⟩
      refine .bind ((hi remaining).mono fun active g hactive => ?_)
      obtain ⟨hsub, remaining', hg, hr⟩ := hactive
      simp only [ha, if_true]
      refine ⟨fun t ht => ?_, remaining', hg, fun t ht => ⟨(hr t ht).1, fun hm => ?_⟩⟩
      case refine_1 => exact (List.mem_cons.mp ht).elim (fun h => h ▸ .head _) fun h => .tail _ (hsub t h)
      case refine_2 => exact (List.mem_cons.mp hm).elim (fun h => h ▸ .head _) fun h => .tail _ ((hr t ht).2 h)
    case neg =>
      refine ⟨_, hinv.sample hg ha, .bind ((hi _).mono fun active g hactive => ?_)⟩
      obtain ⟨hsub, remaining', hg, hr⟩ := hactive
      simp only [ha, if_false]
      refine ⟨fun t ht => .tail _ (hsub t ht), remaining', hg, fun t ht => ?_⟩
      obtain ⟨hm, hactive⟩ := hr t ht
      obtain ⟨hm, hne⟩ := List.mem_filter.mp hm
      refine ⟨hm, fun hc => hactive ((List.mem_cons.mp hc).resolve_left ?_)⟩
      simpa using hne

theorem fenceHarts_wp (harts remaining : List Nat) :
    (tlbProtocol platform).wp cpu (fenceHarts harts)
      (fun _ g => g = .settling root version
        (remaining.filter fun c => ∀ hart ∈ harts, platform.cpuHardwareId c ≠ some hart))
      (.settling root version remaining) := by
  induction harts generalizing remaining
  case nil =>
    show _ = _
    simp
  case cons hart harts hi =>
    refine .bind (.total (fun _ => rfl) trivial fun state values hinv hg _ =>
      ⟨_, hinv.fence hg, (hi _).mono fun _ g hg => ?_⟩)
    simp only [hg, List.filter_filter, List.forall_mem_cons, TlbPhase.settling.injEq, true_and]
    congr 1
    funext c
    simp [Bool.and_comm]

-- The mask has the harts of all targets.

theorem Platform.hartMaskBase_le_acc (targets : List Nat) (acc : Nat) :
    targets.foldl (fun base cpu => match platform.cpuHardwareId cpu with
      | some hardwareId => min base hardwareId
      | none            => base) acc ≤ acc := by
  induction targets generalizing acc
  case nil => exact Nat.le_refl _
  case cons target targets hi =>
    refine Nat.le_trans (hi _) ?_
    dsimp only
    split
    case h_1 => exact Nat.min_le_left ..
    case h_2 => exact Nat.le_refl _

theorem Platform.hartMaskBase_le {targets : List Nat} {target hart : Nat} (hm : target ∈ targets)
    (hh : platform.cpuHardwareId target = some hart) : platform.hartMaskBase targets ≤ hart := by
  simp only [hartMaskBase]
  generalize 2 ^ 64 - 1 = acc
  induction hm generalizing acc
  case head =>
    simp only [List.foldl_cons, hh]
    exact Nat.le_trans (hartMaskBase_le_acc _ _) (Nat.min_le_right ..)
  case tail hi => exact hi _

theorem Platform.hartMask_testBit {base mask : Nat} {targets : List Nat} {target hart : Nat}
    (h : platform.hartMask base targets = some mask) (hm : target ∈ targets)
    (hh : platform.cpuHardwareId target = some hart) : hart - base < 64 ∧ mask.testBit (hart - base) := by
  induction hm generalizing mask
  case head =>
    simp only [hartMask, hh] at h
    split at h
    case isTrue => cases h
    case isFalse hlt =>
      have ⟨rest, _, hmask⟩ := Option.map_eq_some_iff.mp h
      refine ⟨Nat.lt_of_not_le hlt, ?_⟩
      rw [← hmask]
      simp [Nat.testBit_or, Nat.testBit_shiftLeft]
  case tail c targets _ hi =>
    simp only [hartMask] at h
    split at h
    case h_1 => exact hi h
    case h_2 =>
      split at h
      case isTrue => cases h
      case isFalse =>
        have ⟨rest, hrest, hmask⟩ := Option.map_eq_some_iff.mp h
        have ⟨hlt, hbit⟩ := hi hrest
        refine ⟨hlt, ?_⟩
        rw [← hmask, Nat.testBit_or, hbit]
        rfl

-- A processor that is left has a hart, so it has been fenced if the harts of all targets have.
theorem settling_nil {remaining harts : List Nat}
    (h : ∀ target ∈ remaining, ∃ hart ∈ harts, platform.cpuHardwareId target = some hart) :
    remaining.filter (fun c => ∀ hart ∈ harts, platform.cpuHardwareId c ≠ some hart) = [] := by
  simp only [List.filter_eq_nil_iff, decide_eq_true_eq]
  intro target ht hall
  have ⟨hart, hm, hh⟩ := h target ht
  exact hall hart hm hh

theorem remoteSfenceVma_wp {mask : Nat} {targets remaining : List Nat}
    (hmask : platform.hartMask (platform.hartMaskBase targets) targets = some mask)
    (hs : ∀ target ∈ remaining, target ∈ targets)
    (hon : ∀ target ∈ targets, target ∈ platform.onlineCpus) :
    (tlbProtocol platform).wp cpu (remoteSfenceVma mask (platform.hartMaskBase targets))
      (fun _ g => g = .settling root version []) (.settling root version remaining) := by
  refine (fenceHarts_wp _ remaining).mono fun _ g hg => ?_
  rw [hg, settling_nil]
  intro target ht
  have ⟨hart, hh, _⟩ := platform.online_hardware target (hon target (hs target ht))
  have ⟨hlt, hbit⟩ := hartMask_testBit hmask (hs target ht) hh
  have hbase := hartMaskBase_le (hs target ht) hh
  refine ⟨hart, List.mem_map.mpr ⟨hart - platform.hartMaskBase targets, ?_, ?_⟩, hh⟩
  case refine_1 => exact List.mem_filter.mpr ⟨List.mem_range.mpr hlt, hbit⟩
  case refine_2 => exact Nat.add_sub_cancel' hbase

theorem remoteSfenceVma_one (hart : Nat) : remoteSfenceVma 1 hart = fenceHarts [hart] := rfl

theorem fenceEach_wp {targets remaining : List Nat} (hs : ∀ target ∈ remaining, target ∈ targets)
    (hon : ∀ target ∈ targets, target ∈ platform.onlineCpus) :
    (tlbProtocol platform).wp cpu (platform.fenceEach targets)
      (fun _ g => g = .settling root version []) (.settling root version remaining) := by
  induction targets generalizing remaining
  case nil => exact congrArg _ (List.eq_nil_iff_forall_not_mem.mpr fun t ht => List.not_mem_nil (hs t ht))
  case cons target targets hi =>
    obtain ⟨hart, hh, _⟩ := platform.online_hardware target (hon target (.head _))
    simp only [fenceEach, hh, remoteSfenceVma_one]
    refine .bind ((fenceHarts_wp [hart] remaining).mono fun _ g hg => ?_)
    rw [hg]
    refine hi (fun t ht => ?_) fun t ht => hon t (.tail _ ht)
    obtain ⟨hm, hne⟩ := List.mem_filter.mp ht
    refine (List.mem_cons.mp (hs t hm)).resolve_left fun he => ?_
    simp [he, hh] at hne

theorem tlbShootdown_wp :
    (tlbProtocol platform).wp cpu (platform.tlbShootdown cpu root)
      (fun _ g => g = .settling root version [] ∨ root = 0 ∧ g = .flushed root version)
      (.flushed root version) := by
  simp only [tlbShootdown]
  split
  case isTrue hroot => exact .inr ⟨hroot, rfl⟩
  case isFalse hroot =>
    refine .bind (.total (fun _ => rfl) trivial fun state values hinv hg _ =>
      ⟨_, (hinv.nextGeneration hg).request hroot, ?_⟩)
    refine .bind ((storeRequests_wp hroot _).mono fun _ g hg => ?_)
    rw [hg]
    refine .bind ((activeTargets_wp _ _).mono fun active g hactive => ?_)
    obtain ⟨hsub, remaining, hg, hr⟩ := hactive
    have hs : ∀ target ∈ remaining, target ∈ active := fun t ht => (hr t ht).2 (hr t ht).1
    have hon : ∀ target ∈ active, target ∈ platform.onlineCpus :=
      fun t ht => (List.mem_filter.mp (hsub t ht)).1
    subst hg
    split
    case isTrue he =>
      have : remaining = [] := List.eq_nil_iff_forall_not_mem.mpr fun t ht => List.not_mem_nil (he ▸ hs t ht)
      exact .inl (congrArg _ this)
    case isFalse hne =>
      -- Processors that are online have harts, so the base is one of theirs.
      obtain ⟨target, ht⟩ := List.exists_mem_of_ne_nil _ hne
      obtain ⟨hart, hh, hlt⟩ := platform.online_hardware target (hon target ht)
      rw [if_pos (Nat.ne_of_lt (Nat.lt_of_le_of_lt (hartMaskBase_le ht hh) hlt))]
      split
      case h_1 mask hmask => exact (remoteSfenceVma_wp hmask hs hon).mono fun _ _ => .inl
      case h_2 => exact (fenceEach_wp hs hon).mono fun _ _ => .inl

theorem commitPageTableRetirement_wp :
    (tlbProtocol platform).wp cpu (platform.commitPageTableRetirement cpu root) (fun _ g => g = .idle) .idle := by
  refine .bind (.total (fun _ => rfl) trivial fun state values hinv hg _ => ⟨_, hinv.edit hg root, ?_⟩)
  refine .bind (.total (fun _ => rfl) trivial fun state values hinv hg _ => ⟨_, hinv.flushEdited hg, ?_⟩)
  refine .bind (tlbShootdown_wp.mono fun _ g hg => ?_)
  exact .total (fun _ => rfl) trivial fun state values hinv hv _ =>
    ⟨_, hinv.complete (hg.imp hv.trans (.imp_right hv.trans)), rfl⟩

theorem tlbCall_wp {α : Type} {p : TlbM α} (h : TlbCall platform cpu p) :
    (tlbProtocol platform).wp cpu p (fun _ g => g = .idle) .idle := by
  cases h
  case activate root hroot hon => exact activateMemorySetIfNeeded_wp hroot hon
  case restore => exact restoreKernelPageTable_wp
  case commit root => exact commitPageTableRetirement_wp
  case walk other =>
    exact .total (fun _ => rfl) trivial fun state values hinv hg _ => ⟨_, hinv.walk hg other, rfl⟩

theorem TlbState.boot_inv : TlbState.boot.Inv platform fun _ => .idle where
  roots      := fun _ => rfl
  online     := fun _ h => absurd rfl h
  old        := fun _ => ⟨Nat.le_refl _, Nat.le_refl _, nofun⟩
  fresh      := nofun
  distinct   := nofun
  obligation := fun _ => trivial
  completed  := nofun

-- Two processors whose harts do not fit one mask.
def twoHarts : Platform where
  onlineCpus      := [0, 1]
  cpuHardwareId   := fun cpu => some (1 + 100 * cpu)
  asid            := fun root => root
  online_nodup    := by decide
  online_hardware := fun cpu hc => ⟨_, rfl, by simp at hc; omega⟩

-- The second processor caches a translation of a root, and then the first one edits the page table and shoots
-- the translation down.
def retireShared : Nat → TlbM Unit
  | 0 => do
    twoHarts.commitPageTableRetirement 0 7
    pure ()
  | 1 => do
    activateMemorySetIfNeeded 1 7
    walk 1
    pure ()
  | _ => pure ()

theorem retireShared_calls (cpu : Nat) : (retireShared cpu).Calls (TlbCall twoHarts cpu) := by
  match cpu with
  | 0     => exact .call (.commit 7) fun _ => .done
  | 1     => exact .call (.activate 7 (by decide) (by decide)) fun _ => .call (.walk 1) fun _ => .done
  | _ + 2 => exact .done

end WllOs
