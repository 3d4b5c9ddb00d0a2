import WllOs.Task.GroupExit

namespace WllOs

namespace ExitSystem

open Function (update)

variable {s s' : ExitSystem} {ctx ctx' : KernelCtx} {act : ExitAct} {pc : ExitPc} {t member : Nat} {code : Int}
variable {rest : List Nat} {i : Nat}

-- `rest` are members, and they are the only ones that a thread has not seen to be zombies.
def Unseen (s : ExitSystem) (rest : List Nat) : Prop :=
  (∀ member ∈ rest, member ∈ s.members) ∧ ∀ member ∈ s.members, member ∈ rest ∨ s.status member = .zombie

-- What a context knows at its place.
def PcFits (s : ExitSystem) (ctx : KernelCtx) : ExitPc → Prop
  | .exit _                => ∀ t, ctx = .task t → t ∈ s.members
  | .look i code           => s.exits[i]? = some code
  | .check rest i code     => s.exits[i]? = some code ∧ s.Unseen rest
  | .mark (.thread i) code => s.exits[i]? = some code ∧ s.Unseen []
  | .endMembers rest i code => s.groupExits[i]? = some code ∧ ∀ member ∈ rest, member ∈ s.members
  | .mark (.group i) code  => s.groupExits[i]? = some code
  | .setCode code          => ∃ finalised, s.finalised = [finalised] ∧ code = finalised.due
  | .endPeers rest         => (∃ t ∈ s.members, ctx = .task t) ∧ ∀ member ∈ rest, member ∈ s.members
  | _                      => True

structure Inv (s : ExitSystem) : Prop where
  nonempty : s.members ≠ []
  fresh : ∀ member ∈ s.members, member < s.next
  ended : ∀ member ∈ s.ended, member ∈ s.members ∧ s.status member = .zombie
  pcs : ∀ ctx, s.PcFits ctx (s.pc ctx)
  -- The last member to end leaves a context that is still to look, or to mark the process.
  progress : s.AllZombie → s.processZombie ∨ ∃ ctx, (s.pc ctx).Exiting
  running : s.processZombie = false → s.finalised = [] ∧ s.reported = []
  finalised : s.processZombie = true → ∃ finalised, s.finalised = [finalised] ∧ finalised.early = false ∧
    (∀ code ∈ s.reported, code = finalised.due) ∧ (s.exitCode = finalised.due ∨ ∃ ctx code, s.pc ctx = .setCode code)

theorem Inv.finalisedOnce (h : s.Inv) : s.FinalisedOnce := by
  cases hz : s.processZombie
  case true =>
    have ⟨finalised, hf, he, hr, _⟩ := h.finalised hz
    refine ⟨by simp [hf], by simpa [hf] using he, fun f hm code hc => ?_, by simp [hf]⟩
    rw [hf, List.mem_singleton] at hm
    exact hm ▸ hr code hc
  case false =>
    have ⟨hf, _⟩ := h.running hz
    refine ⟨by simp [hf], by simp [hf], by simp [hf], fun ha hn => ?_⟩
    cases h.progress fun member hm => (h.ended member (ha member hm)).2
    case inl hz' => simp [hz] at hz'
    case inr he => exact absurd he.choose_spec (hn _)

-- A step that leaves the process alone, makes no member and revives none.
structure Keeps (s s' : ExitSystem) (ctx : KernelCtx) : Prop where
  pc : ∀ ctx', ctx' ≠ ctx → s'.pc ctx' = s.pc ctx'
  members : s'.members = s.members
  next : s'.next = s.next
  zombie : ∀ member, s.status member = .zombie → s'.status member = .zombie
  ended : ∀ member ∈ s'.ended, member ∈ s.ended ∨ member ∈ s.members ∧ s'.status member = .zombie
  exits : s.exits <+: s'.exits
  groupExits : s.groupExits <+: s'.groupExits
  processZombie : s'.processZombie = s.processZombie
  exitCode : s'.exitCode = s.exitCode
  finalised : s'.finalised = s.finalised
  reported : s'.reported = s.reported

theorem prefix_getElem? {α : Type} {l l' : List α} {a : α} (h : l <+: l') (hi : l[i]? = some a) :
    l'[i]? = some a := by
  have ⟨_, he⟩ := h
  have ⟨hl, _⟩ := List.getElem?_eq_some_iff.mp hi
  rwa [← he, List.getElem?_append_left hl]

theorem Unseen.keep (h : s.Unseen rest) (hk : Keeps s s' ctx) : s'.Unseen rest := by
  have ⟨hm, hz⟩ := h
  unfold Unseen
  rw [hk.members]
  exact ⟨hm, fun member hi => (hz member hi).imp_right (hk.zombie member)⟩

theorem PcFits.keep (h : s.PcFits ctx' pc) (hk : Keeps s s' ctx) : s'.PcFits ctx' pc := by
  cases pc
  case exit => exact fun t ht => hk.members ▸ h t ht
  case look => exact prefix_getElem? hk.exits h
  case check => exact ⟨prefix_getElem? hk.exits h.1, h.2.keep hk⟩
  case endMembers => exact ⟨prefix_getElem? hk.groupExits h.1, hk.members ▸ h.2⟩
  case mark cause _ =>
    cases cause
    case thread => exact ⟨prefix_getElem? hk.exits h.1, h.2.keep hk⟩
    case group => exact prefix_getElem? hk.groupExits h
  case setCode =>
    show ∃ finalised, s'.finalised = [finalised] ∧ _
    rw [hk.finalised]
    exact h
  case endPeers =>
    show (∃ t ∈ s'.members, _) ∧ ∀ member ∈ _, member ∈ s'.members
    rw [hk.members]
    exact h
  all_goals trivial

theorem PcFits.congr (h : s.PcFits ctx pc) (hm : s'.members = s.members) (hs : s'.status = s.status)
    (he : s'.exits = s.exits) (hg : s'.groupExits = s.groupExits) (hf : s'.finalised = s.finalised) :
    s'.PcFits ctx pc := by
  cases pc
  case mark cause _ => cases cause <;> simpa only [PcFits, Unseen, hm, hs, he, hg] using h
  all_goals first | trivial | simpa only [PcFits, Unseen, hm, hs, he, hg, hf] using h

theorem PcFits.leave : s.PcFits ctx (leave ctx) := by
  cases ctx <;> trivial

theorem Inv.keep (h : s.Inv) (hk : Keeps s s' ctx) (hc : ∀ code, s.pc ctx ≠ .setCode code)
    (hp : s'.PcFits ctx (s'.pc ctx)) (hg : s'.AllZombie → s'.processZombie ∨ ∃ ctx, (s'.pc ctx).Exiting) :
    s'.Inv where
  nonempty := hk.members ▸ h.nonempty
  fresh := by
    rw [hk.members, hk.next]
    exact h.fresh
  ended member hm := by
    rw [hk.members]
    cases hk.ended member hm
    case inl he => exact (h.ended member he).imp_right (hk.zombie member)
    case inr he => exact he
  pcs ctx' := by
    by_cases he : ctx' = ctx
    case pos => exact he ▸ hp
    case neg => rw [hk.pc ctx' he]; exact (h.pcs ctx').keep hk
  progress := hg
  running := by
    rw [hk.processZombie, hk.finalised, hk.reported]
    exact h.running
  finalised hz := by
    rw [hk.finalised, hk.reported, hk.exitCode]
    have ⟨finalised, hf, he, hr, hx⟩ := h.finalised (hk.processZombie ▸ hz)
    refine ⟨finalised, hf, he, hr, hx.imp_right fun ⟨ctx', code, hx⟩ => ⟨ctx', code, ?_⟩⟩
    rw [hk.pc ctx' (by rintro rfl; exact hc code hx), hx]

-- A step that ends no member, by a context that is in no exit or that stays in one.
theorem Inv.keepProgress (h : s.Inv) (hk : Keeps s s' ctx) (hz : s'.AllZombie → s.AllZombie)
    (he : s'.AllZombie → (s.pc ctx).Exiting → (s'.pc ctx).Exiting) :
    s'.AllZombie → s'.processZombie ∨ ∃ ctx, (s'.pc ctx).Exiting := by
  intro ha
  rw [hk.processZombie]
  refine (h.progress (hz ha)).imp_right fun ⟨ctx', hx⟩ => ?_
  by_cases hc : ctx' = ctx
  case pos => exact ⟨ctx, he ha (hc ▸ hx)⟩
  case neg => exact ⟨ctx', hk.pc ctx' hc ▸ hx⟩

@[simp]
theorem goto_pc_self : (s.goto ctx pc).pc ctx = pc :=
  Function.update_self ..

theorem goto_pc_other (hn : ctx' ≠ ctx) : (s.goto ctx pc).pc ctx' = s.pc ctx' :=
  Function.update_of_ne hn ..

theorem keeps_refl (s : ExitSystem) (ctx : KernelCtx) : Keeps s s ctx where
  pc _ _ := rfl
  members := rfl
  next := rfl
  zombie _ h := h
  ended _ h := .inl h
  exits := List.prefix_rfl
  groupExits := List.prefix_rfl
  processZombie := rfl
  exitCode := rfl
  finalised := rfl
  reported := rfl

theorem Keeps.goto (h : Keeps s s' ctx) : Keeps s (s'.goto ctx pc) ctx where
  __ := h
  pc ctx' hn := (goto_pc_other hn).trans (h.pc ctx' hn)

theorem status_setStatus {status : TaskStatus} (h : s.status t = .zombie → status = .zombie)
    (hz : s.status member = .zombie) : update s.status t status member = .zombie := by
  by_cases he : member = t
  case pos => subst he; rw [Function.update_self]; exact h hz
  case neg => rwa [Function.update_of_ne he]

theorem keeps_setStatus {status : TaskStatus} (h : s.status t = .zombie → status = .zombie) :
    Keeps s (s.setStatus t status) ctx where
  __ := keeps_refl s ctx
  zombie _ hz := status_setStatus h hz
  ended _ h := .inl h

theorem keeps_endMember (h : t ∈ s.members) : Keeps s (s.endMember t) ctx where
  __ := keeps_refl s ctx
  zombie _ hz := status_setStatus (fun _ => rfl) hz
  ended member hm := by
    cases List.mem_append.mp hm
    case inl hm => exact .inl hm
    case inr hm =>
      rw [List.mem_singleton.mp hm]
      exact .inr ⟨h, Function.update_self ..⟩

-- Only an end makes a zombie.
theorem AllZombie.of_setStatus {status : TaskStatus} (hs : status ≠ .zombie) (h : (s.setStatus t status).AllZombie) :
    s.AllZombie := by
  intro member hm
  have hz : update s.status t status member = .zombie := h member hm
  by_cases he : member = t
  case pos => subst he; rw [Function.update_self] at hz; exact absurd hz hs
  case neg => rwa [Function.update_of_ne he] at hz

-- A context that goes on, and ends no member.
theorem Inv.goto (h : s.Inv) (hc : ∀ code, s.pc ctx ≠ .setCode code) (hp : s.PcFits ctx pc)
    (he : s.AllZombie → (s.pc ctx).Exiting → pc.Exiting) : (s.goto ctx pc).Inv := by
  have hk : Keeps s (s.goto ctx pc) ctx := (keeps_refl s ctx).goto
  refine h.keep hk hc (by rw [goto_pc_self]; exact hp.keep hk) (h.keepProgress hk (fun ha => ha) fun ha hx => ?_)
  rw [goto_pc_self]
  exact he ha hx

-- A context that stays in an exit.
theorem Inv.exiting (h : s.Inv) (hc : ∀ code, s.pc ctx ≠ .setCode code) (hk : Keeps s s' ctx) (hp : s'.PcFits ctx pc)
    (he : pc.Exiting) : (s'.goto ctx pc).Inv := by
  have hk' : Keeps s' (s'.goto ctx pc) ctx := (keeps_refl s' ctx).goto
  refine h.keep hk.goto hc (by rw [goto_pc_self]; exact hp.keep hk') fun _ => .inr ⟨ctx, ?_⟩
  rwa [goto_pc_self]

theorem Inv.exit (h : s.Inv) (hpc : s.pc (.task t) = .exit code) :
    ({ s.endMember t with exits := s.exits ++ [code] }.goto (.task t) (.look s.exits.length code)).Inv := by
  have hf : t ∈ s.members := (hpc ▸ h.pcs (.task t) : s.PcFits (.task t) (.exit code)) t rfl
  refine h.exiting (by simp [hpc]) ?_ List.getElem?_concat_length trivial
  have hk : Keeps s (s.endMember t) (.task t) := keeps_endMember hf
  exact { hk with exits := List.prefix_append _ _ }

theorem Inv.look (h : s.Inv) (hpc : s.pc ctx = .look i code) :
    (s.goto ctx (if s.members.isEmpty then leave ctx else .check s.members i code)).Inv := by
  have hf : s.exits[i]? = some code := (hpc ▸ h.pcs ctx : s.PcFits ctx (.look i code))
  rw [if_neg (by simpa using h.nonempty)]
  exact h.goto (by simp [hpc]) ⟨hf, fun _ hm => hm, fun _ hm => .inl hm⟩ fun _ _ => trivial

theorem Inv.check (h : s.Inv) (hpc : s.pc ctx = .check (member :: rest) i code) :
    (s.goto ctx (if s.status member = .zombie then .check rest i code else leave ctx)).Inv := by
  have ⟨hf, hm, hz⟩ : s.PcFits ctx (.check (member :: rest) i code) := hpc ▸ h.pcs ctx
  split
  case isTrue he =>
    refine h.goto (by simp [hpc]) ⟨hf, fun m hi => hm m (.tail _ hi), fun m hi => ?_⟩ fun _ _ => trivial
    cases hz m hi
    case inl hr =>
      cases hr
      case head => exact .inr he
      case tail hr => exact .inl hr
    case inr hr => exact .inr hr
  case isFalse he => exact h.goto (by simp [hpc]) .leave fun ha => absurd (ha member (hm member (.head _))) he

-- The thread has seen every member, and found it a zombie.
theorem Inv.seen (h : s.Inv) (hpc : s.pc ctx = .check [] i code) : (s.goto ctx (.mark (.thread i) code)).Inv := by
  have hf : s.PcFits ctx (.check [] i code) := hpc ▸ h.pcs ctx
  exact h.goto (by simp [hpc]) hf fun _ _ => trivial

theorem Inv.endMembers (h : s.Inv) (hpc : s.pc ctx = .endMembers (member :: rest) i code) :
    ((s.endMember member).goto ctx (.endMembers rest i code)).Inv := by
  have ⟨hf, hm⟩ : s.PcFits ctx (.endMembers (member :: rest) i code) := hpc ▸ h.pcs ctx
  exact h.exiting (by simp [hpc]) (keeps_endMember (hm member (.head _))) ⟨hf, fun m hi => hm m (.tail _ hi)⟩ trivial

theorem Inv.ended_all (h : s.Inv) (hpc : s.pc ctx = .endMembers [] i code) :
    (s.goto ctx (.mark (.group i) code)).Inv := by
  have ⟨hf, _⟩ : s.PcFits ctx (.endMembers [] i code) := hpc ▸ h.pcs ctx
  exact h.goto (by simp [hpc]) hf fun _ _ => trivial

-- The code that an orderly exit marks the process with is due.
theorem Inv.due {cause : ExitCause} (h : s.Inv) (hpc : s.pc ctx = .mark cause code) (hz : s.processZombie = false)
    (ho : s.Orderly ctx .run) : code = s.due ∧ (!decide s.AllZombie && s.groupExits.isEmpty) = false := by
  have hf : s.PcFits ctx (.mark cause code) := hpc ▸ h.pcs ctx
  unfold Orderly at ho
  rw [hpc] at ho
  cases cause
  case thread i =>
    have ⟨hg, hl⟩ : s.groupExits = [] ∧ i + 1 = s.exits.length := by simpa [hz] using ho
    have ⟨hc, _, hm⟩ := hf
    have ha : s.AllZombie := fun m hi => by simpa using hm m hi
    have hi : s.exits.length - 1 = i := by omega
    refine ⟨?_, by simp [ha]⟩
    simp [ExitSystem.due, hg, List.getLast?_eq_getElem?, hi, hc]
  case group i =>
    have hi : i = 0 := by simpa [hz] using ho
    have hc : s.groupExits.head? = some code := by rw [List.head?_eq_getElem?, ← hi]; exact hf
    have hn : s.groupExits ≠ [] := by rintro he; simp [he] at hc
    exact ⟨by simp [ExitSystem.due, hc], by simp [hn]⟩

theorem Inv.mark {cause : ExitCause} (h : s.Inv) (hpc : s.pc ctx = .mark cause code) (ho : s.Orderly ctx .run) :
    (s.markProcessZombie ctx code).Inv := by
  cases hz : s.processZombie
  case true =>
    rw [markProcessZombie, if_pos hz]
    have hk : Keeps s (s.goto ctx (leave ctx)) ctx := (keeps_refl s ctx).goto
    exact h.keep hk (by simp [hpc]) (by rw [goto_pc_self]; exact .leave) fun _ => .inl hz
  case false =>
    have ⟨hc, he⟩ := h.due hpc hz ho
    have ⟨hf, hr⟩ := h.running hz
    have hf' : (s.finalise code).finalised = [⟨code, s.due, false⟩] := by simp [finalise, hf, he]
    rw [markProcessZombie, if_neg (by simp [hz])]
    refine ⟨h.nonempty, h.fresh, h.ended, fun ctx' => ?_, fun _ => .inl rfl, nofun, fun _ => ?_⟩
    case refine_1 =>
      by_cases hx : ctx' = ctx
      case pos => rw [hx, goto_pc_self]; exact ⟨_, hf', hc⟩
      case neg =>
        rw [goto_pc_other hx]
        have hp := h.pcs ctx'
        show PcFits _ ctx' (s.pc ctx')
        cases hq : s.pc ctx' <;> rw [hq] at hp
        case mark cause _ => cases cause <;> exact hp
        case setCode => have ⟨_, hn, _⟩ := hp; simp [hf] at hn
        all_goals exact hp
    case refine_2 => exact ⟨_, hf', rfl, by simp [ExitSystem.goto, finalise, hr], .inr ⟨ctx, code, goto_pc_self⟩⟩

theorem Inv.setCode (h : s.Inv) (hpc : s.pc ctx = .setCode code) :
    ({ s with exitCode := code }.goto ctx (leave ctx)).Inv := by
  have ⟨finalised, hf, hc⟩ : s.PcFits ctx (.setCode code) := hpc ▸ h.pcs ctx
  have hz : s.processZombie = true := by
    cases hz : s.processZombie
    case true => rfl
    case false => simp [(h.running hz).1] at hf
  refine ⟨h.nonempty, h.fresh, h.ended, fun ctx' => ?_, fun _ => .inl hz, h.running, fun _ => ?_⟩
  case refine_1 =>
    by_cases hx : ctx' = ctx
    case pos => rw [hx, goto_pc_self]; exact .leave
    case neg =>
      rw [goto_pc_other hx]
      exact (h.pcs ctx').congr rfl rfl rfl rfl rfl
  case refine_2 =>
    have ⟨finalised', hf', he, hr, _⟩ := h.finalised hz
    have hx : finalised' = finalised := by simpa [hf] using hf'.symm
    exact ⟨finalised', hf', he, hr, .inl (hx ▸ hc)⟩

-- Nobody has looked at the members, so nobody misses the new one.
theorem Inv.clone (h : s.Inv) (hpc : s.pc ctx = .clone) (hl : ∀ ctx, ¬(s.pc ctx).Looked) :
    ({ s.setStatus s.next .ready with members := s.members ++ [s.next], next := s.next + 1 }.goto ctx .idle).Inv := by
  have hm {t : Nat} (ht : t ∈ s.members) : t ∈ s.members ++ [s.next] := List.mem_append_left _ ht
  refine ⟨by simp [ExitSystem.goto], fun t ht => ?_, fun t ht => ?_, fun ctx' => ?_, fun ha => ?_, h.running, fun hz => ?_⟩
  case refine_1 =>
    show t < s.next + 1
    cases List.mem_append.mp ht
    case inl ht => have := h.fresh t ht; omega
    case inr ht => have := List.mem_singleton.mp ht; omega
  case refine_2 =>
    have ⟨hi, hz⟩ := h.ended t ht
    have hn : t ≠ s.next := Nat.ne_of_lt (h.fresh t hi)
    exact ⟨hm hi, (Function.update_of_ne hn ..).trans hz⟩
  case refine_3 =>
    by_cases hx : ctx' = ctx
    case pos => rw [hx, goto_pc_self]; trivial
    case neg =>
      rw [goto_pc_other hx]
      have hp := h.pcs ctx'
      have hl := hl ctx'
      show PcFits _ ctx' (s.pc ctx')
      cases hq : s.pc ctx' <;> rw [hq] at hp hl
      case exit => exact fun t ht => hm (hp t ht)
      case check => exact absurd trivial hl
      case mark cause _ =>
        cases cause
        case thread => exact absurd trivial hl
        case group => exact hp
      case endMembers => exact ⟨hp.1, fun t ht => hm (hp.2 t ht)⟩
      case endPeers =>
        have ⟨⟨t, ht, he⟩, hr⟩ := hp
        exact ⟨⟨t, hm ht, he⟩, fun t ht => hm (hr t ht)⟩
      all_goals exact hp
  case refine_4 =>
    have hn : update s.status s.next .ready s.next = .zombie := ha s.next (List.mem_append_right _ (.head _))
    simp at hn
  case refine_5 =>
    have ⟨finalised, hf, he, hr, hx⟩ := h.finalised hz
    refine ⟨finalised, hf, he, hr, hx.imp_right fun ⟨ctx', code, hx⟩ => ⟨ctx', code, ?_⟩⟩
    rw [goto_pc_other (by rintro rfl; simp [hpc] at hx)]
    exact hx

theorem Inv.endPeers (h : s.Inv) (hpc : s.pc ctx = .endPeers (member :: rest))
    (ho : ∀ t, ctx = .task t → s.status t ≠ .zombie) :
    ((if .task member = ctx then s else s.endMember member).goto ctx (.endPeers rest)).Inv := by
  have ⟨⟨t, hm, ht⟩, hr⟩ : s.PcFits ctx (.endPeers (member :: rest)) := hpc ▸ h.pcs ctx
  have hp : s.PcFits ctx (.endPeers rest) := ⟨⟨t, hm, ht⟩, fun m hi => hr m (.tail _ hi)⟩
  split
  case isTrue => exact h.goto (by simp [hpc]) hp fun _ he => by simp [hpc, ExitPc.Exiting] at he
  case isFalse hn =>
    have hk : Keeps s ((s.endMember member).goto ctx (.endPeers rest)) ctx :=
      (keeps_endMember (hr member (.head _))).goto
    refine h.keep hk (by simp [hpc]) (by rw [goto_pc_self]; exact hp.keep hk) fun ha => ?_
    -- The thread in `execve` is a member that has not ended.
    have hz : update s.status member .zombie t = .zombie := ha t hm
    rw [Function.update_of_ne (by rintro rfl; exact hn ht.symm)] at hz
    exact absurd hz (ho t ht)

-- A step of `stop_task_group` or of `continue_task_group`, which does not touch a zombie.
theorem Inv.setStatus {status : TaskStatus} (h : s.Inv) (hc : ∀ code, s.pc ctx ≠ .setCode code)
    (hx : ¬(s.pc ctx).Exiting) (hs : status ≠ .zombie) (hz : s.status t ≠ .zombie) (hp : ∀ s, PcFits s ctx pc) :
    ((s.setStatus t status).goto ctx pc).Inv := by
  have hk : Keeps s ((s.setStatus t status).goto ctx pc) ctx := (keeps_setStatus fun he => absurd he hz).goto
  refine h.keep hk hc (by rw [goto_pc_self]; exact hp _) ?_
  exact h.keepProgress hk (fun ha => AllZombie.of_setStatus hs ha) fun _ he => absurd he hx

theorem Inv.advance (h : s.Inv) (ho : s.Orderly ctx .run) (hs : s.advance ctx (s.pc ctx) = some s') : s'.Inv := by
  have ho' := ho
  unfold Orderly at ho'
  cases hpc : s.pc ctx <;> rw [hpc] at hs ho'
  case idle => cases hs
  case ended => cases hs
  case exit code =>
    cases ctx
    case task t => cases hs; exact h.exit hpc
    case interrupt => cases hs
  case look => cases hs; exact h.look hpc
  case check rest _ _ =>
    cases rest
    case nil => cases hs; exact h.seen hpc
    case cons => cases hs; exact h.check hpc
  case endMembers rest _ _ =>
    cases rest
    case nil => cases hs; exact h.ended_all hpc
    case cons => cases hs; exact h.endMembers hpc
  case mark => cases hs; exact h.mark hpc ho
  case setCode => cases hs; exact h.setCode hpc
  case clone => cases hs; exact h.clone hpc ho'
  all_goals
    have hc : ∀ code, s.pc ctx ≠ .setCode code := by simp [hpc]
    have hx : ¬(s.pc ctx).Exiting := by rw [hpc]; exact id
    have free {pc : ExitPc} (hp : s.PcFits ctx pc) : (s.goto ctx pc).Inv := h.goto hc hp fun _ he => absurd he hx
  case endPeers rest =>
    cases rest
    case nil => cases hs; exact free trivial
    case cons => cases hs; exact h.endPeers hpc ho'
  case stopMembers rest =>
    cases rest
    case nil => cases hs; exact free trivial
    case cons => cases hs; exact free (by split <;> trivial)
  case stopMember => cases hs; exact h.setStatus hc hx (by decide) ho' fun _ => trivial
  case continueMembers rest =>
    cases rest
    case nil => cases hs; exact free trivial
    case cons => cases hs; exact free (by split <;> trivial)
  case continueMember => cases hs; exact h.setStatus hc hx (by decide) ho' fun _ => trivial

theorem Inv.beginGroupExit (h : s.Inv) (hc : ∀ code, s.pc ctx ≠ .setCode code) : (s.beginGroupExit ctx code).Inv := by
  refine h.exiting hc ?_ ⟨List.getElem?_concat_length, fun _ hm => hm⟩ trivial
  exact { keeps_refl s ctx with groupExits := List.prefix_append _ _ }

-- `stop_task_group` and `continue_task_group` write down whether the group is stopped first.
theorem Inv.stopped {stopped : Bool} (h : s.Inv) : Inv { s with stopped } :=
  ⟨h.nonempty, h.fresh, h.ended, fun ctx => (h.pcs ctx).congr rfl rfl rfl rfl rfl, h.progress, h.running, h.finalised⟩

theorem Inv.wait (h : s.Inv) (hz : s.processZombie = true) (ho : ∀ ctx code, s.pc ctx ≠ .setCode code) :
    Inv { s with reported := s.reported ++ [s.exitCode] } := by
  have ⟨finalised, hf, he, hr, hx⟩ := h.finalised hz
  refine ⟨h.nonempty, h.fresh, h.ended, fun ctx => (h.pcs ctx).congr rfl rfl rfl rfl rfl, h.progress,
    fun hn => by simp [hz] at hn, fun _ => ⟨finalised, hf, he, fun code hc => ?_, hx⟩⟩
  cases List.mem_append.mp hc
  case inl hc => exact hr code hc
  case inr hc =>
    rw [List.mem_singleton.mp hc]
    exact hx.resolve_right fun ⟨ctx, code, hx⟩ => ho ctx code hx

theorem Inv.call (h : s.Inv) (hpc : s.pc ctx = .idle) (hm : ∀ t, ctx = .task t → t ∈ s.members)
    (hi : ∀ i, ctx = .interrupt i → act.outside) (ho : s.Orderly ctx act) (hs : s.call ctx act = some s') : s'.Inv := by
  have hc : ∀ code, s.pc ctx ≠ .setCode code := by simp [hpc]
  have hx : ¬(s.pc ctx).Exiting := by rw [hpc]; exact id
  have free {pc : ExitPc} (hp : s.PcFits ctx pc) : (s.goto ctx pc).Inv := h.goto hc hp fun _ he => absurd he hx
  cases act
  case exit => cases hs; exact free hm
  case exitGroup => cases hs; exact h.beginGroupExit hc
  case fatal => cases hs; exact h.beginGroupExit hc
  case clone => cases hs; exact free trivial
  case exec =>
    cases hs
    cases ctx
    case task t => exact free ⟨⟨t, hm t rfl, rfl⟩, fun _ hm => hm⟩
    case interrupt i => cases hi i rfl
  case stop =>
    simp only [ExitSystem.call] at hs
    split at hs
    case isTrue => cases hs
    case isFalse => cases hs; exact h.stopped.goto hc trivial fun _ he => absurd he hx
  case «continue» =>
    simp only [ExitSystem.call] at hs
    split at hs
    case isTrue => cases hs
    case isFalse => cases hs; exact h.stopped.goto hc trivial fun _ he => absurd he hx
  case wait =>
    simp only [ExitSystem.call] at hs
    split at hs
    case isTrue hz => cases hs; exact h.wait hz ho
    case isFalse => cases hs
  case run => cases hs

theorem Inv.start (h : s.Inv) (hpc : s.pc ctx = .idle) (ho : s.Orderly ctx act) (hs : s.start ctx act = some s') :
    s'.Inv := by
  unfold ExitSystem.start at hs
  split at hs <;> split at hs
  case h_1.isTrue hm => exact h.call hpc (by rintro _ ⟨⟩; exact hm.1) nofun ho hs
  case h_2.isTrue hi => exact h.call hpc nofun (by rintro _ ⟨⟩; exact hi) ho hs
  all_goals cases hs

theorem Inv.step (h : s.Inv) (ho : s.Orderly ctx act) (hs : s.step ctx act = some s') : s'.Inv := by
  unfold ExitSystem.step at hs
  split at hs
  case h_1 => exact h.advance ho hs
  case h_2 hpc => exact h.start hpc ho hs
  case h_3 => cases hs

theorem initial_inv : initial.Inv where
  nonempty := by simp [initial]
  fresh := by simp [initial]
  ended := by simp [initial]
  pcs _ := trivial
  progress ha := absurd (ha 0 (.head _)) (by decide)
  running _ := ⟨rfl, rfl⟩
  finalised := nofun

theorem Reachable.inv (h : Reachable Orderly s) : s.Inv := by
  induction h
  case initial => exact initial_inv
  case step ho hs hi => exact hi.step ho hs

variable {p : ExitSystem → KernelCtx → ExitAct → Prop}

theorem Reachable.run (h : Reachable p s) (hk : p s ctx .run) (hs : s.advance ctx (s.pc ctx) = some s') :
    Reachable p s' :=
  h.step hk (by simpa only [ExitSystem.step] using hs)

end ExitSystem

end WllOs
