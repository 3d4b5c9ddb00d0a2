import WllOs.Mm.Basic

namespace WllOs

def LINUX_NGROUPS_MAX : Nat := 65536

def MAX_SUPPLEMENTARY_GROUPS : Nat := 32

-- The ids of a user or of a group.
structure Ids where
  real : BitVec 32
  effective : BitVec 32
  saved : BitVec 32
  fs : BitVec 32
  deriving DecidableEq, Repr

structure Credentials where
  uids : Ids
  gids : Ids
  supplementaryGroups : List (BitVec 32)
  deriving DecidableEq, Repr

namespace Ids

-- `has_uid` and `has_gid`.
def has (ids : Ids) (id : BitVec 32) : Bool :=
  id = ids.real || id = ids.effective || id = ids.saved

def hasOrFs (ids : Ids) (id : BitVec 32) : Bool :=
  ids.has id || id = ids.fs

def setEffective (ids : Ids) (id : BitVec 32) : Ids :=
  { ids with effective := id, fs := id }

-- Both kinds of calls with several ids store the real and the effective id first.
def store (ids : Ids) (newReal newEffective : Option (BitVec 32)) : Ids :=
  let withReal := match newReal with
    | some id => { ids with real := id }
    | none    => ids
  match newEffective with
  | some id => withReal.setEffective id
  | none    => withReal

variable (ids : Ids) (privileged : Bool)

def set (id : BitVec 32) : Except SysErrNo Ids :=
  if privileged then
    .ok ⟨id, id, id, id⟩
  else if ids.has id then
    .ok (ids.setEffective id)
  else
    .error .EPERM

def setRe (newReal newEffective : Option (BitVec 32)) : Except SysErrNo Ids :=
  if !privileged && newReal.any (fun id => id ≠ ids.real && id ≠ ids.effective) then
    .error .EPERM
  else if !privileged && newEffective.any (!ids.has ·) then
    .error .EPERM
  else
    let stored := ids.store newReal newEffective
    if newReal.isSome || newEffective.any (· ≠ ids.real) then
      .ok { stored with saved := stored.effective }
    else
      .ok stored

def setRes (newReal newEffective newSaved : Option (BitVec 32)) : Except SysErrNo Ids :=
  if !privileged && [newReal, newEffective, newSaved].reduceOption.any (!ids.has ·) then
    .error .EPERM
  else
    let stored := ids.store newReal newEffective
    match newSaved with
    | some id => .ok { stored with saved := id }
    | none    => .ok stored

def setFs (newFs : Option (BitVec 32)) : Ids :=
  match newFs with
  | some id => if privileged || ids.hasOrFs id then { ids with fs := id } else ids
  | none    => ids

end Ids

def u32Max : Nat := 2 ^ 32 - 1

def parseIdArg (raw : Nat) : Except SysErrNo (Option (BitVec 32)) :=
  if raw = Usize.max ∨ raw = u32Max then .ok none
  else if raw > u32Max then .error .EINVAL
  else .ok (some (BitVec.ofNat 32 raw))

def parseRequiredId (raw : Nat) : Except SysErrNo (BitVec 32) :=
  if raw > u32Max then .error .EINVAL else .ok (BitVec.ofNat 32 raw)

def parseFilesystemIdArg (raw : Nat) : Option (BitVec 32) :=
  if raw = Usize.max ∨ raw = u32Max ∨ raw > u32Max then none else some (BitVec.ofNat 32 raw)

def parseGroupCount (raw : Nat) : Except SysErrNo Nat :=
  if raw > 2 ^ 31 - 1 then .error .EINVAL else .ok raw

namespace Credentials

def root : Credentials :=
  ⟨⟨0, 0, 0, 0⟩, ⟨0, 0, 0, 0⟩, [0]⟩

variable (creds : Credentials)

def isRootCapable : Bool :=
  creds.uids.effective = 0

def sysSetuid (uid : Nat) : Except SysErrNo Credentials := do
  let uid ← parseRequiredId uid
  return { creds with uids := ← creds.uids.set creds.isRootCapable uid }

def sysSetgid (gid : Nat) : Except SysErrNo Credentials := do
  let gid ← parseRequiredId gid
  return { creds with gids := ← creds.gids.set creds.isRootCapable gid }

def sysSetreuid (ruid euid : Nat) : Except SysErrNo Credentials := do
  let newRuid ← parseIdArg ruid
  let newEuid ← parseIdArg euid
  return { creds with uids := ← creds.uids.setRe creds.isRootCapable newRuid newEuid }

def sysSetregid (rgid egid : Nat) : Except SysErrNo Credentials := do
  let newRgid ← parseIdArg rgid
  let newEgid ← parseIdArg egid
  return { creds with gids := ← creds.gids.setRe creds.isRootCapable newRgid newEgid }

def sysSetresuid (ruid euid suid : Nat) : Except SysErrNo Credentials := do
  let newRuid ← parseIdArg ruid
  let newEuid ← parseIdArg euid
  let newSuid ← parseIdArg suid
  return { creds with uids := ← creds.uids.setRes creds.isRootCapable newRuid newEuid newSuid }

def sysSetresgid (rgid egid sgid : Nat) : Except SysErrNo Credentials := do
  let newRgid ← parseIdArg rgid
  let newEgid ← parseIdArg egid
  let newSgid ← parseIdArg sgid
  return { creds with gids := ← creds.gids.setRes creds.isRootCapable newRgid newEgid newSgid }

-- These calls return the previous id.
def sysSetfsuid (uid : Nat) : BitVec 32 × Credentials :=
  (creds.uids.fs, { creds with uids := creds.uids.setFs creds.isRootCapable (parseFilesystemIdArg uid) })

def sysSetfsgid (gid : Nat) : BitVec 32 × Credentials :=
  (creds.gids.fs, { creds with gids := creds.gids.setFs creds.isRootCapable (parseFilesystemIdArg gid) })

-- `read` is what the task reads from an address of its memory.
def sysSetgroups (size list : Nat) (read : Nat → Except SysErrNo (BitVec 32)) : Except SysErrNo Credentials := do
  let size ← parseGroupCount size
  if size > LINUX_NGROUPS_MAX then .error .EINVAL
  else if !creds.isRootCapable then .error .EPERM
  else if size ≠ 0 ∧ list = 0 then .error .EFAULT
  else
    let groups ← (List.range size).mapM fun index => read (list + index * 4)
    if size > MAX_SUPPLEMENTARY_GROUPS then .error .EINVAL
    else return { creds with supplementaryGroups := groups }

end Credentials

-- The calls of a task that change its credentials.
inductive CredentialCall
  | setuid (uid : Nat)
  | setgid (gid : Nat)
  | setreuid (ruid euid : Nat)
  | setregid (rgid egid : Nat)
  | setresuid (ruid euid suid : Nat)
  | setresgid (rgid egid sgid : Nat)
  | setfsuid (uid : Nat)
  | setfsgid (gid : Nat)
  | setgroups (size list : Nat) (read : Nat → Except SysErrNo (BitVec 32))

namespace Credentials

def call (creds : Credentials) : CredentialCall → Except SysErrNo Credentials
  | .setuid uid               => creds.sysSetuid uid
  | .setgid gid               => creds.sysSetgid gid
  | .setreuid ruid euid       => creds.sysSetreuid ruid euid
  | .setregid rgid egid       => creds.sysSetregid rgid egid
  | .setresuid ruid euid suid => creds.sysSetresuid ruid euid suid
  | .setresgid rgid egid sgid => creds.sysSetresgid rgid egid sgid
  | .setfsuid uid             => .ok (creds.sysSetfsuid uid).2
  | .setfsgid gid             => .ok (creds.sysSetfsgid gid).2
  | .setgroups size list read => creds.sysSetgroups size list read

-- A call that fails leaves the credentials as they are.
def step (creds : Credentials) (call : CredentialCall) : Credentials :=
  match creds.call call with
  | .ok creds => creds
  | .error _  => creds

def run (creds : Credentials) (calls : List CredentialCall) : Credentials :=
  calls.foldl step creds

-- The task is not privileged when it makes the calls.
def Unprivileged (creds : Credentials) : List CredentialCall → Prop
  | [] => True
  | call :: calls => creds.isRootCapable = false ∧ (creds.step call).Unprivileged calls

end Credentials

end WllOs
