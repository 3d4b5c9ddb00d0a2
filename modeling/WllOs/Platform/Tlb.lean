import WllOs.Library.Concurrent

namespace WllOs

-- The processors that are online, the harts of processors, and the identifiers that address spaces tag
-- their translations with. A processor is online only after its hart is known.
structure Platform where
  onlineCpus : List Nat
  cpuHardwareId : (cpu : Nat) → Option Nat
  asid : (root : Nat) → Nat
  online_nodup : onlineCpus.Nodup
  online_hardware : ∀ cpu ∈ onlineCpus, ∃ id, cpuHardwareId cpu = some id ∧ id < 2 ^ 64 - 1

-- A translation that a processor has cached is given by its root and by how often the page table of this
-- root had been edited by then. `satp` is the root that a processor translates addresses with, where 0
-- stands for the kernel. An edit is completed once its shootdown has returned.
structure TlbState where
  activeAddressSpace : (cpu : Nat) → Nat
  tlbRequest : (cpu : Nat) → Nat
  tlbAck : (cpu : Nat) → Nat
  tlbGeneration : Nat
  satp : (cpu : Nat) → Nat
  edits : (root : Nat) → Nat
  cached : (cpu : Nat) → List (Nat × Nat)
  completed : List (Nat × Nat)

namespace TlbState

def boot : TlbState where
  activeAddressSpace := fun _ => 0
  tlbRequest         := fun _ => 0
  tlbAck             := fun _ => 0
  tlbGeneration      := 0
  satp               := fun _ => 0
  edits              := fun _ => 0
  cached             := fun _ => []
  completed          := []

-- A processor that runs a root, which it has published and translates addresses with, has no translation
-- from before an edit that is completed.
def Safe (state : TlbState) : Prop :=
  ∀ cpu root version, root ≠ 0 → (root, version) ∈ state.completed →
    state.activeAddressSpace cpu = root → state.satp cpu = root →
    ∀ cachedAt, (root, cachedAt) ∈ state.cached cpu → version ≤ cachedAt

end TlbState

-- The processor that executes an instruction is its thread. A processor may cache a translation of its root
-- at any time, whatever it executes.
inductive TlbInstr : Type → Type
  | storeActive (root : Nat) : TlbInstr Unit
  | loadActive (cpu : Nat) : TlbInstr Nat
  | loadRequest : TlbInstr Nat
  | storeRequest (cpu generation : Nat) : TlbInstr Unit
  | loadAck : TlbInstr Nat
  | storeAck (generation : Nat) : TlbInstr Unit
  | nextGeneration : TlbInstr Nat
  | loadSatp : TlbInstr Nat
  | storeSatp (root : Nat) : TlbInstr Unit
  | flushAll : TlbInstr Unit
  | fence (hart : Nat) : TlbInstr Unit
  | edit (root : Nat) : TlbInstr Nat
  | complete (root version : Nat) : TlbInstr Unit
  | walk (cpu : Nat) : TlbInstr Unit

namespace TlbInstr

open Function (update)

def machine (platform : Platform) : Machine TlbInstr TlbState Nat where
  exec cpu
    | storeActive root, state =>
      some ((), { state with activeAddressSpace := update state.activeAddressSpace cpu root })
    | loadActive cpu, state => some (state.activeAddressSpace cpu, state)
    | loadRequest, state => some (state.tlbRequest cpu, state)
    | storeRequest cpu generation, state =>
      some ((), { state with tlbRequest := update state.tlbRequest cpu generation })
    | loadAck, state => some (state.tlbAck cpu, state)
    | storeAck generation, state =>
      some ((), { state with tlbAck := update state.tlbAck cpu generation })
    | nextGeneration, state =>
      some (state.tlbGeneration + 1, { state with tlbGeneration := state.tlbGeneration + 1 })
    | loadSatp, state => some (state.satp cpu, state)
    | storeSatp root, state => some ((), { state with satp := update state.satp cpu root })
    | flushAll, state => some ((), { state with cached := update state.cached cpu [] })
    | fence hart, state =>
      some ((), { state with
        cached := fun cpu => if platform.cpuHardwareId cpu = some hart then [] else state.cached cpu })
    | edit root, state =>
      some (state.edits root + 1, { state with edits := update state.edits root (state.edits root + 1) })
    | complete root version, state =>
      some ((), { state with completed := (root, version) :: state.completed })
    | walk cpu, state =>
      let root := state.satp cpu
      some ((), { state with
        cached := update state.cached cpu ((root, state.edits root) :: state.cached cpu) })

end TlbInstr

abbrev TlbM := Prog TlbInstr

namespace Platform

open TlbInstr

def markCurrentAddressSpace (root : Nat) : TlbM Unit := do
  storeActive root
  let request ← loadRequest
  if (← loadAck) ≠ request then
    flushAll
    storeAck request

-- `TaskControlBlock::activate_memory_set_if_needed` and `MemorySet::activate`. A root has a single address
-- space identifier, so the one in use is compared along with the root.
def activateMemorySetIfNeeded (cpu root : Nat) : TlbM Unit := do
  if root ≠ 0 && (← loadActive cpu) = root then
    return
  markCurrentAddressSpace root
  if (← loadSatp) ≠ root then
    storeSatp root

def restoreKernelPageTable (platform : Platform) : TlbM Unit := do
  storeActive 0
  let current ← loadSatp
  if current ≠ 0 then
    storeSatp 0
    if platform.asid current = 0 then
      flushAll

def storeRequests (generation : Nat) : (targets : List Nat) → TlbM Unit
  | [] => pure ()
  | cpu :: targets => do
    storeRequest cpu generation
    storeRequests generation targets

-- The targets that have published the root.
def activeTargets (root : Nat) : (targets : List Nat) → TlbM (List Nat)
  | [] => pure []
  | cpu :: targets => do
    let active ← loadActive cpu
    let rest ← activeTargets root targets
    return if active = root then cpu :: rest else rest

def fenceHarts : (harts : List Nat) → TlbM Unit
  | [] => pure ()
  | hart :: harts => do
    fence hart
    fenceHarts harts

-- The harts of the mask, relative to a base. The call returns after all of them have been fenced.
def remoteSfenceVma (hartMask hartMaskBase : Nat) : TlbM Unit :=
  fenceHarts <| ((List.range 64).filter hartMask.testBit).map (hartMaskBase + ·)

def hartMaskBase (platform : Platform) (targets : List Nat) : Nat :=
  targets.foldl (fun base cpu => match platform.cpuHardwareId cpu with
    | some hardwareId => min base hardwareId
    | none            => base) (2 ^ 64 - 1)

-- The mask of the harts, unless one of them does not fit.
def hartMask (platform : Platform) (base : Nat) : (targets : List Nat) → Option Nat
  | [] => some 0
  | cpu :: targets =>
    match platform.cpuHardwareId cpu with
    | none => hartMask platform base targets
    | some hardwareId =>
      let offset := hardwareId - base
      if offset ≥ 64 then none else (hartMask platform base targets).map (· ||| 1 <<< offset)

def fenceEach (platform : Platform) : (targets : List Nat) → TlbM Unit
  | [] => pure ()
  | cpu :: targets => do
    match platform.cpuHardwareId cpu with
    | some hardwareId => remoteSfenceVma 1 hardwareId
    | none            => pure ()
    fenceEach platform targets

def tlbShootdown (platform : Platform) (cpu addressSpaceRoot : Nat) : TlbM Unit := do
  if addressSpaceRoot = 0 then
    return
  let targets := platform.onlineCpus.filter (· ≠ cpu)
  let generation ← nextGeneration
  storeRequests generation targets
  let targets ← activeTargets addressSpaceRoot targets
  if targets = [] then
    return
  let base := platform.hartMaskBase targets
  if base ≠ 2 ^ 64 - 1 then
    match platform.hartMask base targets with
    | some mask => remoteSfenceVma mask base
    | none      => platform.fenceEach targets

-- Edits a page table and retires the translations of what it was before. In between, the frames of the
-- pages that were unmapped are kept.
def commitPageTableRetirement (platform : Platform) (cpu root : Nat) : TlbM Unit := do
  let version ← edit root
  flushAll
  platform.tlbShootdown cpu root
  complete root version

-- What a processor that is online does to its address space and to the ones of others. The root of an
-- address space is the address of a frame, which is not 0.
inductive TlbCall (platform : Platform) (cpu : Nat) : {α : Type} → TlbM α → Prop
  | activate (root : Nat) : root ≠ 0 → cpu ∈ platform.onlineCpus →
      TlbCall platform cpu (activateMemorySetIfNeeded cpu root)
  | restore : TlbCall platform cpu platform.restoreKernelPageTable
  | commit (root : Nat) : TlbCall platform cpu (platform.commitPageTableRetirement cpu root)
  | walk (other : Nat) : TlbCall platform cpu (walk other)

end Platform

end WllOs
