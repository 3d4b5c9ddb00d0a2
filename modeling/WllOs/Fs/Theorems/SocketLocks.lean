import WllOs.Fs.SocketLocks

namespace WllOs.Fs.SocketLocks

-- A program locks only what it does not have, on each of its ways, when it has the locks `held`.
inductive Disciplined : Set Nat → List Instr → Prop
  | nil : Disciplined ∅ []
  | lock {held : Set Nat} {state : Nat} {rest : List Instr} : state ∉ held →
      Disciplined (insert state held) rest → Disciplined held (.lock state :: rest)
  | unlock {held : Set Nat} {state : Nat} {rest : List Instr} : state ∈ held →
      Disciplined (held \ {state}) rest → Disciplined held (.unlock state :: rest)
  | upgrade {held : Set Nat} {state : Nat} {found missing rest : List Instr} : Disciplined held (found ++ rest) →
      Disciplined held (missing ++ rest) → Disciplined held (.upgrade state found missing :: rest)
  | upgradePeer {held : Set Nat} {state : Nat} {found : Nat → List Instr} {missing rest : List Instr} :
      (∀ peer, Disciplined held (found peer ++ rest)) → Disciplined held (missing ++ rest) →
        Disciplined held (.upgradePeer state found missing :: rest)
  | drop {held : Set Nat} {state : Nat} {rest : List Instr} : Disciplined held rest →
      Disciplined held (.drop state :: rest)
  | new {held : Set Nat} {made : Nat → List Instr} {rest : List Instr} :
      (∀ state ∉ held, Disciplined held (made state ++ rest)) → Disciplined held (.new made :: rest)
  | setPeer {held : Set Nat} {state peer : Nat} {rest : List Instr} : Disciplined held rest →
      Disciplined held (.setPeer state peer :: rest)
  | push {held : Set Nat} {listener state : Nat} {rest : List Instr} : Disciplined held rest →
      Disciplined held (.push listener state :: rest)
  | pop {held : Set Nat} {listener : Nat} {found : Nat → List Instr} {missing rest : List Instr} :
      (∀ state, Disciplined held (found state ++ rest)) → Disciplined held (missing ++ rest) →
        Disciplined held (.pop listener found missing :: rest)
  | install {held : Set Nat} {state : Nat} {rest : List Instr} : Disciplined held rest →
      Disciplined held (.install state :: rest)

namespace Disciplined

variable {held : Set Nat} {state : Nat} {rest : List Instr}

-- A lock that is released at once.
theorem lock_unlock (hs : state ∉ held) (h : Disciplined held rest) :
    Disciplined held (.lock state :: .unlock state :: rest) := by
  refine .lock hs (.unlock (Set.mem_insert ..) ?_)
  rwa [Set.insert_sdiff_self_of_notMem hs]

theorem scan (states : List Nat) (h : Disciplined held rest) : Disciplined held (scan states ++ rest) := by
  induction states
  case nil => exact h
  case cons state states hi => exact .upgrade (.drop hi) hi

theorem drops (states : List Nat) (h : Disciplined held rest) : Disciplined held (states.map .drop ++ rest) := by
  induction states
  case nil => exact h
  case cons state states hi => exact .drop hi

theorem ask (asks : Bool) (h : Disciplined ∅ rest) : Disciplined ∅ (ask state asks ++ rest) := by
  have unlock : Disciplined {state} (.unlock state :: rest) := .unlock rfl (by rwa [Set.sdiff_self])
  apply Disciplined.lock (Set.notMem_empty _)
  rw [insert_empty_eq]
  cases asks
  case false => exact unlock
  case true => exact .upgradePeer (fun _ => .drop unlock) unlock

theorem reach (asks : Bool) (h : Disciplined ∅ rest) : Disciplined ∅ (reach state asks ++ rest) := by
  have unlock {rest : List Instr} (h : Disciplined ∅ rest) : Disciplined {state} (.unlock state :: rest) :=
    .unlock rfl (by rwa [Set.sdiff_self])
  apply Disciplined.lock (Set.notMem_empty _)
  rw [insert_empty_eq]
  cases asks
  case false => exact unlock h
  case true => exact .upgradePeer (fun _ => unlock (.lock_unlock (Set.notMem_empty _) (.drop h))) (unlock h)

theorem request {client listener : Nat} (listening : Bool) (states : List Nat) (h : Disciplined ∅ rest) :
    Disciplined ∅ (request client listener listening states ++ rest) := by
  have unlock {rest : List Instr} (h : Disciplined ∅ rest) : Disciplined {listener} (.unlock listener :: rest) :=
    .unlock rfl (by rwa [Set.sdiff_self])
  apply Disciplined.lock (Set.notMem_empty _)
  rw [insert_empty_eq]
  cases listening
  case false => exact unlock (.drop h)
  case true =>
    refine .new fun accepted hn => ?_
    simp only [List.append_assoc]
    apply scan
    refine .lock hn (.setPeer (.unlock (Set.mem_insert ..) ?_))
    rw [Set.insert_sdiff_self_of_notMem hn]
    refine .push (unlock (.lock (Set.notMem_empty _) (.setPeer (.unlock (Set.mem_insert ..) ?_))))
    rw [insert_empty_eq, Set.sdiff_self]
    exact .drop (.drop h)

theorem procNetTable (states live : List Nat) : Disciplined ∅ (procNetTable states live) := by
  induction states generalizing live
  case nil =>
    induction live
    case nil => exact .nil
    case cons state live hi => exact .lock_unlock (Set.notMem_empty _) (.drop hi)
  case cons state states hi =>
    refine .upgrade ?_ ?_
    all_goals simpa using hi _

theorem accepted {listener : Nat} (named room : Bool) (h : Disciplined ∅ rest) :
    Disciplined {listener} (Call.accepted listener named room state ++ rest) := by
  have last : Disciplined ∅ ((if room then Instr.install state else .drop state) :: rest) := by
    cases room
    case false => exact .drop h
    case true  => exact .install h
  refine .unlock rfl ?_
  rw [Set.sdiff_self]
  cases named
  case false => exact last
  case true  => exact .lock_unlock (Set.notMem_empty _) last

theorem program (call : Call) : Disciplined ∅ call.program := by
  cases call
  case socket states =>
    refine .new fun state _ => ?_
    rw [List.append_nil]
    exact scan states (.install .nil)
  case socketpair states =>
    refine .new fun left _ => ?_
    rw [List.append_nil]
    refine .new fun right _ => ?_
    rw [List.append_nil]
    apply scan
    refine .lock (Set.notMem_empty _) (.setPeer (.unlock (Set.mem_insert ..) ?_))
    rw [insert_empty_eq, Set.sdiff_self]
    refine .lock (Set.notMem_empty _) (.setPeer (.unlock (Set.mem_insert ..) ?_))
    rw [insert_empty_eq, Set.sdiff_self]
    exact .install (.install .nil)
  case dup => exact .install .nil
  case close => exact .drop .nil
  case poll => exact ask _ (.install .nil)
  case write => exact reach _ (.install .nil)
  case sendto => exact reach _ (.drop .nil)
  case sendtoAddress state bindings target =>
    simp only [Call.program, List.cons_append, List.nil_append]
    refine .lock_unlock (Set.notMem_empty _) ?_
    refine scan _ (.upgrade ?_ (.drop .nil))
    exact .lock_unlock (Set.notMem_empty _) (.drop (.drop .nil))
  case recvfrom state asks =>
    simp only [Call.program]
    induction asks
    case nil => exact .drop .nil
    case cons asks rest hi =>
      rw [List.flatMap_cons, List.append_assoc]
      exact ask _ hi
  case shutdown => exact reach _ (.drop .nil)
  case bind state bindings =>
    apply Disciplined.lock (Set.notMem_empty _)
    apply scan
    refine .unlock (Set.mem_insert ..) ?_
    rw [insert_empty_eq, Set.sdiff_self]
    exact .drop .nil
  case connectDatagram => exact .lock_unlock (Set.notMem_empty _) (.drop .nil)
  case connect state listener listening bindings states =>
    simp only [Call.program, List.cons_append, List.nil_append]
    refine .lock_unlock (Set.notMem_empty _) ?_
    exact scan _ (.upgrade (request _ _ (.drop .nil)) (.drop .nil))
  case accept listener waits named room =>
    have last : Disciplined ∅ [.lock listener, .pop listener (Call.accepted listener named room) [.unlock listener],
        .drop listener] := by
      apply Disciplined.lock (Set.notMem_empty _)
      rw [insert_empty_eq]
      refine .pop (fun _ => accepted _ _ (.drop .nil)) (.unlock rfl ?_)
      rw [Set.sdiff_self]
      exact .drop .nil
    simp only [Call.program]
    induction waits
    case zero => exact last
    case succ n hi =>
      rw [List.range_succ_eq_map, List.flatMap_cons, List.flatMap_map]
      exact .lock_unlock (Set.notMem_empty _) hi
  case procNet => exact procNetTable _ []

theorem destructor {machine : Machine} (hp : ∀ peer, machine.peer state = some peer → peer ∉ held)
    (h : Disciplined held rest) : Disciplined held (machine.destructor state ++ rest) := by
  simp only [Machine.destructor, List.append_assoc]
  have drops := drops (machine.pending state) h
  cases hs : machine.peer state
  case none => exact drops
  case some peer => exact .upgrade (.lock_unlock (hp peer hs) (.drop drops)) drops

end Disciplined

namespace Machine

variable {machine machine' : Machine} {cpu address : Nat} {program : List Instr}

def held (machine : Machine) (cpu : Nat) : Set Nat :=
  { state | machine.owner state = some cpu }

def Obeys (machine : Machine) : Prop :=
  ∀ cpu, Disciplined (machine.held cpu) (machine.cpus cpu)

-- The locks of a CPU change, and its program with them.
theorem Obeys.run_of (h : machine.Obeys) (hc : machine'.cpus = machine.cpus)
    (ho : ∀ other ≠ cpu, machine'.held other = machine.held other) (hp : Disciplined (machine'.held cpu) program) :
    (machine'.run cpu program).Obeys := by
  intro other
  simp only [run, Function.update_apply, hc]
  split
  case isTrue he => exact he ▸ hp
  case isFalse he => exact ho other he ▸ h other

theorem Obeys.run (h : machine.Obeys) (hc : machine'.cpus = machine.cpus) (ho : machine'.owner = machine.owner)
    (hp : Disciplined (machine.held cpu) program) : (machine'.run cpu program).Obeys := by
  have held other : machine'.held other = machine.held other := by simp only [Machine.held, ho]
  exact h.run_of hc (fun other _ => held other) (held cpu ▸ hp)

theorem Obeys.lock (h : machine.Obeys) {state : Nat} (ho : machine.owner state = none)
    (hp : Disciplined (insert state (machine.held cpu)) program) :
    ((machine.setOwner state (some cpu)).run cpu program).Obeys := by
  refine h.run_of rfl (fun other hn => Set.ext fun s => ?_) ?_
  case refine_1 =>
    simp only [held, setOwner, Function.update_apply, Set.mem_ofPred_eq]
    split
    case isTrue hs => simp [hs, ho, hn.symm]
    case isFalse => rfl
  case refine_2 =>
    convert hp using 1
    ext s
    simp only [held, setOwner, Function.update_apply, Set.mem_ofPred_eq, Set.mem_insert_iff]
    grind

theorem Obeys.unlock (h : machine.Obeys) {state : Nat} (ho : state ∈ machine.held cpu)
    (hp : Disciplined (machine.held cpu \ {state}) program) :
    ((machine.setOwner state none).run cpu program).Obeys := by
  have owner : machine.owner state = some cpu := ho
  refine h.run_of rfl (fun other hn => Set.ext fun s => ?_) ?_
  case refine_1 =>
    simp only [held, setOwner, Function.update_apply, Set.mem_ofPred_eq]
    split
    case isTrue hs => simp [hs, owner, hn.symm]
    case isFalse => rfl
  case refine_2 =>
    convert hp using 1
    ext s
    simp only [held, setOwner, Function.update_apply, Set.mem_ofPred_eq, Set.mem_sdiff, Set.mem_singleton_iff]
    grind

theorem Obeys.advance (h : machine.Obeys) (hs : machine.Spares cpu) (hu : machine.Unused address)
    (ha : machine.advance cpu address = some machine') : machine'.Obeys := by
  have obeys := h cpu
  simp only [Machine.advance] at ha
  cases hp : machine.cpus cpu
  case nil => simp [hp] at ha
  case cons instr rest =>
    rw [hp] at ha obeys
    generalize hh : machine.held cpu = locks at obeys
    cases obeys
    case lock hn hd =>
      simp only at ha
      split at ha
      case isTrue => cases ha
      case isFalse ho => cases ha; exact h.lock (by simpa using ho) (hh ▸ hd)
    case unlock hm hd => cases ha; exact h.unlock (hh ▸ hm) (hh ▸ hd)
    case upgrade hf hm =>
      simp only at ha
      split at ha <;> cases ha
      case isTrue  => exact h.run rfl rfl (hh ▸ hm)
      case isFalse => exact h.run rfl rfl (hh ▸ hf)
    case upgradePeer hf hm =>
      simp only at ha
      split at ha <;> cases ha
      case h_1 => exact h.run rfl rfl (hh ▸ hm)
      case h_2 => exact h.run rfl rfl (hh ▸ hf _)
    case drop hd =>
      simp only at ha
      split at ha <;> cases ha
      case isTrue hl => exact h.run rfl rfl (.destructor (fun peer he => hs _ _ hp hl peer he) (hh ▸ hd))
      case isFalse => exact h.run rfl rfl (hh ▸ hd)
    case new hd => cases ha; exact h.run rfl rfl (hh ▸ hd _ (by simp [← hh, held, hu.owner]))
    case setPeer hd => cases ha; exact h.run rfl rfl (hh ▸ hd)
    case push hd => cases ha; exact h.run rfl rfl (hh ▸ hd)
    case pop hf hm =>
      simp only at ha
      split at ha <;> cases ha
      case h_1 => exact h.run rfl rfl (hh ▸ hm)
      case h_2 => exact h.run rfl rfl (hh ▸ hf _)
    case install hd => cases ha; exact h.run rfl rfl (hh ▸ hd)

theorem begin_eq {call : Call} (hb : call.begin machine = some machine') :
    machine'.cpus = machine.cpus ∧ machine'.owner = machine.owner := by
  have take {state : Nat} (h : machine.takeDescriptor state = some machine') :
      machine'.cpus = machine.cpus ∧ machine'.owner = machine.owner := by
    simp only [takeDescriptor] at h
    split at h <;> cases h
    exact ⟨rfl, rfl⟩
  have clone {state : Nat} (h : machine.cloneDescriptor state = some machine') :
      machine'.cpus = machine.cpus ∧ machine'.owner = machine.owner := by
    simp only [cloneDescriptor] at h
    split at h <;> cases h
    exact ⟨rfl, rfl⟩
  cases call
  case socket | socketpair | procNet => cases hb; exact ⟨rfl, rfl⟩
  case close | poll | write => exact take hb
  all_goals exact clone hb

theorem Obeys.begin (h : machine.Obeys) {call : Call} (hc : machine.cpus cpu = [])
    (hb : call.begin machine = some machine') : (machine'.run cpu call.program).Obeys := by
  have ⟨cpus, owner⟩ := begin_eq hb
  have obeys := h cpu
  rw [hc] at obeys
  generalize hh : machine.held cpu = locks at obeys
  cases obeys
  exact h.run cpus owner (hh ▸ .program call)

theorem Sparing.obeys (h : machine.Sparing) : machine.Obeys := by
  induction h
  case init =>
    intro cpu
    have none : Machine.init.held cpu = ∅ := Set.eq_empty_of_forall_notMem fun _ => nofun
    exact none ▸ .nil
  case begin call _ hc hb hi => exact hi.begin hc hb
  case advance hs hu ha hi => exact hi.advance hs hu ha

theorem Obeys.no_selfDeadlock (h : machine.Obeys) : ¬machine.SelfDeadlock := by
  rintro ⟨cpu, state, rest, hc, ho⟩
  have obeys := h cpu
  rw [hc] at obeys
  generalize hh : machine.held cpu = locks at obeys
  cases obeys
  case lock hn _ => exact hn (hh ▸ ho)

end Machine

end WllOs.Fs.SocketLocks
