import WllOs.Mm.Basic

namespace WllOs

inductive Arch
  | riscv64
  | loongarch64
  deriving DecidableEq, Repr

def userHeapStart : Nat := 0x10000000

def Arch.userStackTop : Arch → Nat
  | riscv64     => 0x7ffff000
  | loongarch64 => 0x80000000

structure UserVaRange where
  start : Nat
  stop : Nat
  deriving DecidableEq, Repr

namespace UserVaRange

def containsRange (self : UserVaRange) (start stop : Nat) : Bool :=
  start ≥ self.start && start < stop && stop ≤ self.stop

def containsAddr (self : UserVaRange) (addr : Nat) : Bool :=
  addr ≥ self.start && addr < self.stop

end UserVaRange

def highMmapArena : UserVaRange where
  start := 0x2000000000
  stop := 0x4000000000

namespace Arch

def lowUserRange (arch : Arch) : UserVaRange where
  start := pageSize
  stop := arch.userStackTop

def lowMmapArena (arch : Arch) : UserVaRange where
  start := 0x20000000
  stop := arch.userStackTop

def mmapArenas (arch : Arch) : List UserVaRange :=
  [arch.lowMmapArena, highMmapArena]

def defaultMmapBase (arch : Arch) : Nat :=
  arch.lowMmapArena.start

def isUserMappableRange (arch : Arch) (start stop : Nat) : Bool :=
  arch.lowUserRange.containsRange start stop || highMmapArena.containsRange start stop

def mmapArenaContaining (arch : Arch) (addr : Nat) : Option UserVaRange :=
  arch.mmapArenas.find? (·.containsAddr addr)

end Arch

def defaultHighMmapBase : Nat :=
  highMmapArena.start

end WllOs
