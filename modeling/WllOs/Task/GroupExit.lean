import WllOs.Task.Wait

namespace WllOs

-- What a context ends a process for: the exit of a thread, or an exit of the whole group. Both are counted.
inductive ExitCause
  | thread (exit : Nat)
  | group (call : Nat)
  deriving DecidableEq

-- Where a context is in a call that ends members of a thread group, or makes one. `rest` are the members that its loop
-- has not come to yet.
inductive ExitPc
  | idle
  -- `exit_current_and_run_next`: `finish_task_exit`, and `all_user_members_zombie`, which takes the members first.
  | exit (code : Int)
  | look (exit : Nat) (code : Int)
  | check (rest : List Nat) (exit : Nat) (code : Int)
  -- `exit_thread_group_and_run_next` and `terminate_task_group`
  | endMembers (rest : List Nat) (call : Nat) (code : Int)
  -- `finish_process_exit`
  | mark (cause : ExitCause) (code : Int)
  | setCode (code : Int)
  | ended
  -- `sys_clone` with `CLONE_THREAD`, and `terminate_thread_group_peers_for_exec`
  | clone
  | endPeers (rest : List Nat)
  -- `stop_task_group` and `continue_task_group`, which look at the status of a member before they set it.
  | stopMembers (rest : List Nat)
  | stopMember (member : Nat) (rest : List Nat)
  | continueMembers (rest : List Nat)
  | continueMember (member : Nat) (rest : List Nat)
  deriving DecidableEq

-- The finalisation of a process: the exit code, the one that is due, and whether it comes before the end of a member
-- without an exit of the group.
structure Finalised where
  code : Int
  due : Int
  early : Bool
  deriving DecidableEq

-- A thread group, and the contexts that are about it. A member that is dropped was a zombie, so the dead are kept. The
-- fields from `exits` on are not read by the kernel: the codes of threads in the order in which they have become zombies
-- by themselves, the codes of exits of the whole group in the order in which they have begun, the members that have
-- ended, the finalisations, and the exit codes that the parent has read.
structure ExitSystem where
  members : List Nat
  status : Nat → TaskStatus
  stopped : Bool
  processZombie : Bool
  exitCode : Int
  pc : KernelCtx → ExitPc
  next : Nat
  exits : List Int
  groupExits : List Int
  ended : List Nat
  finalised : List Finalised
  reported : List Int

inductive ExitAct
  | exit (code : Int)
  | exitGroup (code : Int)
  -- A fatal signal, from whoever queues or delivers it.
  | fatal (code : Int)
  | clone
  | exec
  | stop
  | continue
  -- The parent finds the process a zombie, and reads its exit code.
  | wait
  | run

-- What a context outside the group can do to it.
def ExitAct.outside : ExitAct → Bool
  | .fatal _ | .stop | .continue | .wait => true
  | _                                    => false

namespace ExitSystem

open Function (update)

variable (s : ExitSystem)

def goto (ctx : KernelCtx) (pc : ExitPc) : ExitSystem :=
  { s with pc := update s.pc ctx pc }

def setStatus (t : Nat) (status : TaskStatus) : ExitSystem :=
  { s with status := update s.status t status }

def endMember (t : Nat) : ExitSystem :=
  { s.setStatus t .zombie with ended := s.ended ++ [t] }

def AllZombie : Prop :=
  ∀ member ∈ s.members, s.status member = .zombie

instance : Decidable s.AllZombie :=
  inferInstanceAs (Decidable (∀ _ ∈ _, _))

-- The code of the first exit of the whole group, or else of the last thread.
def due : Int :=
  match s.groupExits.head? with
  | some code => code
  | none      => s.exits.getLast?.getD 0

-- A thread does not come back from its exit.
def leave : KernelCtx → ExitPc
  | .task _      => .ended
  | .interrupt _ => .idle

-- `mark_process_zombie`. The context that marks the process also sets the exit code, and goes on with the rest of
-- `finish_process_exit`.
def finalise (code : Int) : ExitSystem :=
  { s with
    processZombie := true
    finalised := s.finalised ++ [⟨code, s.due, !decide s.AllZombie && s.groupExits.isEmpty⟩] }

def markProcessZombie (ctx : KernelCtx) (code : Int) : ExitSystem :=
  if s.processZombie then s.goto ctx (leave ctx) else (s.finalise code).goto ctx (.setCode code)

-- The next step of a context in a call.
def advance (ctx : KernelCtx) : ExitPc → Option ExitSystem
  | .exit code =>
    match ctx with
    | .task t => some <| { s.endMember t with exits := s.exits ++ [code] }.goto ctx (.look s.exits.length code)
    | _       => none
  | .look exit code => some <| s.goto ctx (if s.members.isEmpty then leave ctx else .check s.members exit code)
  | .check [] exit code => some <| s.goto ctx (.mark (.thread exit) code)
  | .check (member :: rest) exit code =>
    some <| s.goto ctx (if s.status member = .zombie then .check rest exit code else leave ctx)
  | .endMembers [] call code => some <| s.goto ctx (.mark (.group call) code)
  | .endMembers (member :: rest) call code => some <| (s.endMember member).goto ctx (.endMembers rest call code)
  | .mark _ code => some <| s.markProcessZombie ctx code
  | .setCode code => some <| { s with exitCode := code }.goto ctx (leave ctx)
  | .clone =>
    some <| { s.setStatus s.next .ready with members := s.members ++ [s.next], next := s.next + 1 }.goto ctx .idle
  | .endPeers [] => some <| s.goto ctx .idle
  | .endPeers (member :: rest) =>
    some <| (if .task member = ctx then s else s.endMember member).goto ctx (.endPeers rest)
  | .stopMembers [] => some <| s.goto ctx .idle
  | .stopMembers (member :: rest) =>
    some <| s.goto ctx (if s.status member = .zombie then .stopMembers rest else .stopMember member rest)
  | .stopMember member rest => some <| (s.setStatus member .stopped).goto ctx (.stopMembers rest)
  | .continueMembers [] => some <| s.goto ctx .idle
  | .continueMembers (member :: rest) =>
    some <| s.goto ctx (if s.status member = .stopped then .continueMember member rest else .continueMembers rest)
  | .continueMember member rest => some <| (s.setStatus member .ready).goto ctx (.continueMembers rest)
  | .idle | .ended => none

def beginGroupExit (ctx : KernelCtx) (code : Int) : ExitSystem :=
  { s with groupExits := s.groupExits ++ [code] }.goto ctx (.endMembers s.members s.groupExits.length code)

def call (ctx : KernelCtx) : ExitAct → Option ExitSystem
  | .exit code      => some <| s.goto ctx (.exit code)
  | .exitGroup code => some <| s.beginGroupExit ctx code
  | .fatal code     => some <| s.beginGroupExit ctx code
  | .clone          => some <| s.goto ctx .clone
  | .exec           => some <| s.goto ctx (.endPeers s.members)
  | .stop           =>
    if s.processZombie then none else some <| { s with stopped := true }.goto ctx (.stopMembers s.members)
  | .continue       =>
    if s.processZombie ∨ ¬s.stopped then none
    else some <| { s with stopped := false }.goto ctx (.continueMembers s.members)
  | .wait           => if s.processZombie then some { s with reported := s.reported ++ [s.exitCode] } else none
  | .run            => none

-- Scheduling is left out: a member that is neither a zombie nor stopped may enter a call. Tasks of other groups, and the
-- kernel outside of tasks, are the interrupts.
def start (ctx : KernelCtx) (act : ExitAct) : Option ExitSystem :=
  match ctx with
  | .task t      => if t ∈ s.members ∧ s.status t ≠ .zombie ∧ s.status t ≠ .stopped then s.call ctx act else none
  | .interrupt _ => if act.outside then s.call ctx act else none

def step (ctx : KernelCtx) (act : ExitAct) : Option ExitSystem :=
  match act, s.pc ctx with
  | .run, pc => s.advance ctx pc
  | _, .idle => s.start ctx act
  | _, _     => none

-- A process with one thread.
def initial : ExitSystem where
  members := [0]
  status _ := .ready
  stopped := false
  processZombie := false
  exitCode := 0
  pc _ := .idle
  next := 1
  exits := []
  groupExits := []
  ended := []
  finalised := []
  reported := []

inductive Reachable (p : ExitSystem → KernelCtx → ExitAct → Prop) : ExitSystem → Prop
  | initial : Reachable p initial
  | step {s s' : ExitSystem} {ctx : KernelCtx} {act : ExitAct} : Reachable p s → p s ctx act →
      s.step ctx act = some s' → Reachable p s'

end ExitSystem

-- The context has taken the members of the group, and means to find them all ended.
def ExitPc.Looked : ExitPc → Prop
  | check _ _ _ | mark (.thread _) _ => True
  | _                                => False

-- The context is in an exit.
def ExitPc.Exiting : ExitPc → Prop
  | exit _ | look _ _ | check _ _ _ | endMembers _ _ _ | mark _ _ => True
  | _                                                            => False

namespace ExitSystem

variable (s : ExitSystem)

-- Exits do not overtake each other, and nothing else overtakes them: a process that is not a zombie yet is marked by the
-- last thread to exit if no exit of the group has begun, or by the first exit of the group, and its parent reads no exit
-- code that is still to be set. No member is made after a thread has looked at the members, an `execve` ends no peers
-- after it was ended itself, and a member that has become a zombie is neither stopped nor continued.
def Orderly (ctx : KernelCtx) (act : ExitAct) : Prop :=
  match act, s.pc ctx with
  | .run, .mark (.thread exit) _     => s.processZombie ∨ s.groupExits = [] ∧ exit + 1 = s.exits.length
  | .run, .mark (.group call) _      => s.processZombie ∨ call = 0
  | .run, .clone                     => ∀ ctx', ¬(s.pc ctx').Looked
  | .run, .endPeers _                => ∀ t, ctx = .task t → s.status t ≠ .zombie
  | .run, .stopMember member _       => s.status member ≠ .zombie
  | .run, .continueMember member _   => s.status member ≠ .zombie
  | .wait, _                         => ∀ ctx' code, s.pc ctx' ≠ .setCode code
  | _, _                             => True

-- The process is finalised once, after all its members have ended or an exit of the group has begun, and the parent reads
-- the exit code that is due. When all members have ended and no context is in an exit, this has happened.
structure FinalisedOnce : Prop where
  once : s.finalised.length ≤ 1
  late : ∀ finalised ∈ s.finalised, finalised.early = false
  code : ∀ finalised ∈ s.finalised, ∀ code ∈ s.reported, code = finalised.due
  done : (∀ member ∈ s.members, member ∈ s.ended) → (∀ ctx, ¬(s.pc ctx).Exiting) → s.finalised ≠ []

end ExitSystem

end WllOs
