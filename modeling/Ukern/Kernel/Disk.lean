import Ukern.Kernel.Fs

/-! # Disk addresses and `disk_read`

Every disk has a window of `2^DSKSHIFT` bytes from `KDISK` on, where its blocks stand in memory once
they have been read. The macro that places a cluster of an exFAT volume in it is expanded with a `u32`
by the directory scanners and with an `int` by `exfat_read_file`.
-/
namespace Ukern

def dskshift : ℕ := 41

def blk2kaddr (did : ℕ) (blk : U64) : U64 := kdisk ||| (BitVec.ofNat 64 did <<< dskshift) ||| (blk <<< 12)

def lba2kaddr (did : ℕ) (lba : U64) : U64 := kdisk ||| (BitVec.ofNat 64 did <<< dskshift) ||| (lba <<< (12 - 3))

/-- What places the clusters of a volume: `part->lba_beg` and three members of the header. -/
structure ClusterHeap where
  lbaBeg : U64
  clusterHeapOffset : BitVec 32
  clusterCount : BitVec 32
  secPerClusShift : ℕ

namespace ClusterHeap

/-- `EXFAT_CLUS2LBA` of a `u32`: the shift is 32 bits wide, and its result is widened. -/
def clus2lba (h : ClusterHeap) (clus : BitVec 32) : U64 :=
  h.lbaBeg + h.clusterHeapOffset.setWidth 64 + ((clus - 2) <<< h.secPerClusShift).setWidth 64

/-- `EXFAT_CLUS2LBA` of an `int`: the result of the shift is widened with its sign. -/
def clus2lbaInt (h : ClusterHeap) (clus : BitVec 32) : U64 :=
  h.lbaBeg + h.clusterHeapOffset.setWidth 64 + ((clus - 2) <<< h.secPerClusShift).signExtend 64

end ClusterHeap

inductive DriverType
  | unknown | sata
  deriving DecidableEq, Repr

/-- `r == 0 && (*pte & PTE_P)` behind a walk. -/
def Walk.present (m : Phys) : Walk → Bool
  | .slot t i => (m.tbl t i).p
  | _ => false

/-- The loop of `disk_read`. The `continue` at a block that is present leaves out `lba += 8`. -/
def diskReadLoop (kPgtbl did : ℕ) : ℕ → U64 → Phys → Except Fault Phys
  | 0, _, m => .ok m
  | n+1, lba, m => do
    let (r,m) ← walkPgtbl m kPgtbl (lba2kaddr did lba).toNat false
    if r.present m then diskReadLoop kPgtbl did n lba m
    else diskReadLoop kPgtbl did n (lba + 8) (← sataReadBlock kPgtbl m (did,(lba / 8).toNat))

/-- `disk_read`; `disk` has the driver types. -/
def diskReadSectors (kPgtbl nDisk : ℕ) (disk : ℕ → DriverType) (m : Phys) (did : ℕ) (lba : U64) (nSec : ℤ) :
    Except Fault (ℤ × Phys) :=
  if nDisk ≤ did then .error .panic
  else match disk did with
    | .sata => do .ok (0,← diskReadLoop kPgtbl did ((nSec - 1).tdiv 8 + 1).toNat lba m)
    | .unknown => .ok (-1,m)

end Ukern
