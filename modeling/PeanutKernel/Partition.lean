import PeanutKernel.Block

/-!
# Partitions

`fs/partition.c`. The disk a partition lies on is the one medium of the model, so it is not a
field here.
-/

namespace PeanutKernel

structure Partition where
  type : UInt8
  firstLba : ℕ
  sectorCount : ℕ
  deriving DecidableEq, Repr

def partitionIsFat32 (p : Partition) : Bool :=
  p.type = 0x0B || p.type = 0x0C || p.type = 0x1B || p.type = 0x1C

def partitionIsFat (p : Partition) : Bool :=
  partitionIsFat32 p || p.type = 0x01 || p.type = 0x04 || p.type = 0x06 || p.type = 0x0E
    || p.type = 0x11 || p.type = 0x14 || p.type = 0x16 || p.type = 0x1E

end PeanutKernel
