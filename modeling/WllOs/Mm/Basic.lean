import WllOs.Library.Usize

namespace WllOs

inductive SysErrNo
  | EPERM | ENOENT | ESRCH | EINTR | EIO | ENXIO | E2BIG | ENOEXEC | EBADF | ECHILD | EAGAIN
  | ENOMEM | EACCES | EFAULT | ENOTBLK | EBUSY | EEXIST | EXDEV | ENODEV | ENOTDIR | EISDIR
  | EINVAL | ENFILE | EMFILE | ENOTTY | ETXTBSY | EFBIG | ENOSPC | ESPIPE | EROFS | EMLINK | EPIPE
  | EDOM | ERANGE | EDEADLK | ENAMETOOLONG | ENOTEMPTY | ELOOP | ECANCELED | ENODATA | ENOTSOCK
  | EDESTADDRREQ | EMSGSIZE | ENOPROTOOPT | EPROTONOSUPPORT | EOPNOTSUPP | EAFNOSUPPORT
  | EADDRINUSE | EADDRNOTAVAIL | EISCONN | ENOTCONN | ETIMEDOUT | ECONNREFUSED | EALREADY
  | EINPROGRESS | ERESTARTSYS | ENOSYS
  deriving DecidableEq, Repr

def pageSize : Nat := 4096

theorem pageSize_pos : 0 < pageSize := by
  decide

def alignDown (value : Nat) : Nat :=
  value / pageSize * pageSize

def alignUp (value : Nat) : Option Nat :=
  (Usize.checkedAdd value (pageSize - 1)).map (· / pageSize * pageSize)

-- Physical page number.
abbrev Ppn := Nat

-- The contents of a physical page.
abbrev Page := Fin pageSize → UInt8

def Page.zero : Page :=
  fun _ => 0

-- The open files that memory mappings distinguish. The backing of a memory file stands for the
-- address of its `Arc`, and `other` covers the descriptors that have no file identity.
inductive FileDescriptor
  | memFile (backing : Nat) (readable writable : Bool)
  | ext4Regular (ino : Nat) (readable writable : Bool)
  | path (hostPath : String)
  | other (id : Nat) (readable writable : Bool)
  deriving DecidableEq, Repr

namespace FileDescriptor

def sameFileIdentity : FileDescriptor → FileDescriptor → Bool
  | memFile left _ _,     memFile right _ _     => left = right
  | ext4Regular left _ _, ext4Regular right _ _ => left = right
  | path left,            path right            => left = right
  | _,                    _                     => false

def isReadable : FileDescriptor → Bool
  | memFile _ readable _ | ext4Regular _ readable _ | other _ readable _ => readable
  | path _ => false

def isWritable : FileDescriptor → Bool
  | memFile _ _ writable | ext4Regular _ _ writable | other _ _ writable => writable
  | path _ => false

-- The file that a descriptor denotes, without the rights it was opened with.
inductive Identity
  | memFile (backing : Nat)
  | ext4Regular (ino : Nat)
  | path (hostPath : String)
  | handle (file : FileDescriptor)
  deriving DecidableEq, Repr

def identity : FileDescriptor → Identity
  | memFile backing _ _ => .memFile backing
  | ext4Regular ino _ _ => .ext4Regular ino
  | path hostPath       => .path hostPath
  | file                => .handle file

theorem identity_eq {left right : FileDescriptor} (h : left.sameFileIdentity right) :
    left.identity = right.identity := by
  cases left <;> cases right <;> simp_all [sameFileIdentity, identity]

end FileDescriptor

section Alignment

variable {value value' : Nat}

theorem alignDown_mod : alignDown value % pageSize = 0 :=
  Nat.mul_mod_left ..

theorem alignDown_le : alignDown value ≤ value :=
  Nat.div_mul_le_self ..

theorem alignDown_div : alignDown value / pageSize = value / pageSize :=
  Nat.mul_div_cancel _ pageSize_pos

theorem alignDown_eq (h : value % pageSize = 0) : alignDown value = value :=
  Nat.div_mul_cancel (Nat.dvd_of_mod_eq_zero h)

theorem alignUp_mod (h : alignUp value = some value') : value' % pageSize = 0 := by
  simp only [alignUp, Option.map_eq_some_iff] at h
  have ⟨_, _, h⟩ := h
  exact h ▸ Nat.mul_mod_left ..

theorem alignUp_le_max (h : alignUp value = some value') : value' ≤ Usize.max := by
  simp only [alignUp, Option.map_eq_some_iff, Usize.checkedAdd_eq_some] at h
  have ⟨n, ⟨_, hn⟩, h⟩ := h
  exact h ▸ Nat.le_trans (Nat.div_mul_le_self n pageSize) hn

theorem alignUp_eq (hm : value % pageSize = 0) (h : alignUp value = some value') :
    value' = value := by
  simp only [alignUp, Option.map_eq_some_iff, Usize.checkedAdd_eq_some, pageSize] at h hm
  omega

end Alignment

end WllOs
