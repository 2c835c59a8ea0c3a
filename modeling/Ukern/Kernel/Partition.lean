import Ukern.Kernel.Access
import Ukern.Kernel.Disk

/-! # Partition tables

`init_mbr`, `init_gpt` and `detect_guid` of `fs/disk.c`. The `Window` is what stands behind
`blk2kaddr(did, 0)`: `par_entry_siz` is signed, so an entry can lie in front of it as well.
`entries` records the entries of the GPT that were looked at, and `printed` what `printk` got.
-/
namespace Ukern

/-- `strcmp(s1, s2, n) == 0` from byte `i` on: the first NUL ends the comparison. -/
def strcmpFrom (s1 s2 : ℕ → UInt8) : ℕ → ℕ → Bool
  | 0, _ => true
  | n+1, i => if s1 i ≠ s2 i then false else if s1 i = 0 then true else strcmpFrom s1 s2 n (i+1)

/-- `!strcmp(s1, s2, n)` -/
def streq (s1 s2 : ℕ → UInt8) (n : ℕ) : Bool := strcmpFrom s1 s2 n 0

/-- `struct guid` -/
structure Guid where
  f1 : ℕ
  f2 : ℕ
  f3 : ℕ
  f4 : List UInt8

/-- The sixteen bytes of a `struct guid` in memory. -/
def Guid.bytes (g : Guid) (i : ℕ) : UInt8 := (toBytes g.f1 4 ++ toBytes g.f2 2 ++ toBytes g.f3 2 ++ g.f4).getD i 0

/-- `enum guid_type` -/
inductive GuidType
  | empty | mbr | bios | efi | msr | ldmMeta | ldmData | winRecovery | winData | linuxFs
  deriving DecidableEq, Repr

namespace GuidType

/-- The order of the enumeration. -/
def all : List GuidType := [empty,mbr,bios,efi,msr,ldmMeta,ldmData,winRecovery,winData,linuxFs]

def num : GuidType → UInt8
  | empty => 0 | mbr => 1 | bios => 2 | efi => 3 | msr => 4
  | ldmMeta => 5 | ldmData => 6 | winRecovery => 7 | winData => 8 | linuxFs => 9

/-- `known_guid` -/
def known : GuidType → Guid
  | empty => ⟨0,0,0,[0,0,0,0,0,0,0,0]⟩
  | mbr => ⟨0x024DEE41,0x33E7,0x11D3,[0x9D,0x69,0x00,0x08,0xC7,0x81,0xF3,0x9F]⟩
  | bios => ⟨0x21686148,0x6449,0x6E6F,[0x74,0x4E,0x65,0x65,0x64,0x45,0x46,0x49]⟩
  | efi => ⟨0xC12A7328,0xF81F,0x11D2,[0xBA,0x4B,0x00,0xA0,0xC9,0x3E,0xC9,0x3B]⟩
  | msr => ⟨0xE3C9E316,0x0B5C,0x4DB8,[0x81,0x7D,0xF9,0x2D,0xF0,0x02,0x15,0xAE]⟩
  | ldmMeta => ⟨0x5808C8AA,0x7E8F,0x42E0,[0x85,0xD2,0xE1,0xE9,0x04,0x34,0xCF,0xB3]⟩
  | ldmData => ⟨0xAF9B60A0,0x1431,0x4F62,[0xBC,0x68,0x33,0x11,0x71,0x4A,0x69,0xAD]⟩
  | winRecovery => ⟨0xDE94BBA4,0x06D1,0x4D40,[0xA1,0x6A,0xBF,0xD5,0x01,0x79,0xD6,0xAC]⟩
  | winData => ⟨0xEBD0A0A2,0xB9E5,0x4433,[0x87,0xC0,0x68,0xB6,0xB7,0x26,0x99,0xC7]⟩
  | linuxFs => ⟨0x0FC63DAF,0x8483,0x4772,[0x8E,0x79,0x3D,0x69,0xD8,0x47,0x7D,0xE4]⟩

end GuidType

def guidEq (a b : ℕ → UInt8) : Bool := streq a b 16

/-- `struct GPTPAR`, the members in use. -/
structure GptPar where
  typeGuid : ℕ → UInt8
  lbaBeg : U64
  lbaEnd : U64

def Window.gptPar (w : Window) (a : ℤ) : GptPar where
  typeGuid i := w (a + i)
  lbaBeg := BitVec.ofNat 64 (w.field (a + 32) 8)
  lbaEnd := BitVec.ofNat 64 (w.field (a + 40) 8)

/-- `struct diskpart_t`, the members that are set. -/
structure DiskPart where
  partType : UInt8
  lbaBeg : U64
  nSec : U64

/-- The part of `struct disk_t` that the scanners fill, and the partition `rtfs` refers to. -/
structure DiskTable where
  nPart : UInt8
  part : ℕ → DiskPart
  rtfs : Option ℕ
  entries : List ℤ
  printed : List String

namespace DiskTable

/-- `int pid = disk[did].n_part++` and the stores to `part[pid]`. -/
def record (d : DiskTable) (p : DiskPart) : Except Fault DiskTable :=
  if 128 ≤ d.nPart.toNat then .error .overrun
  else .ok { d with nPart := d.nPart + 1, part := Function.update d.part d.nPart.toNat p }

def print (d : DiskTable) (s : String) : DiskTable := { d with printed := d.printed ++ [s] }

/-- `"EXFAT   "` -/
def exfatName (i : ℕ) : UInt8 := [69,88,70,65,84,32,32,32].getD i 0

/-- `detect_fs`; the name stands behind the three bytes of the jump. -/
def detectFs (w : Window) (d : DiskTable) (pid : ℕ) : DiskTable :=
  let hdr : ℤ := ((d.part pid).lbaBeg <<< 9).toNat
  if streq (fun i => w (hdr + 3 + i)) exfatName 8 then { d with rtfs := some pid } else d

end DiskTable

/-- The loop of `detect_guid` up to its `break`: the first known type that compares equal. -/
def detectType (g : ℕ → UInt8) : Option GuidType := GuidType.all.find? fun t => guidEq g t.known.bytes

/-- What `detect_guid` stores; `PARTTYPE_GPT | i` loses its upper bits in a `u8`. -/
def GptPar.part (par : GptPar) (t : GuidType) : DiskPart := ⟨t.num,par.lbaBeg,par.lbaEnd - par.lbaBeg + 1⟩

def detectGuid (w : Window) (did : ℕ) (d : DiskTable) (par : GptPar) : Except Fault DiskTable :=
  match detectType par.typeGuid with
  | none =>
    let i := GuidType.all.length
    .ok (d.print s!"GPT (sd{did},p{i}): unknown guid.\n")
  | some .empty => .ok d
  | some t => do
    let pid := d.nPart.toNat
    let d ← d.record (par.part t)
    .ok (if t = .winData ∨ t = .linuxFs then d.detectFs w pid else d)

/-- The members of `struct GPT` in use. -/
def Window.gptSign (w : Window) : ℕ := w.field 512 8
def Window.nPararr (w : Window) : ℤ := (BitVec.ofNat 32 (w.field (512 + 80) 4)).toInt
def Window.parEntrySiz (w : Window) : ℤ := (BitVec.ofNat 32 (w.field (512 + 84) 4)).toInt

/-- Where entry `i` of the GPT stands: `ptr` after `i` rounds. -/
def Window.entryAt (w : Window) (i : ℕ) : ℤ := 1024 + i * w.parEntrySiz

def gptStep (w : Window) (did : ℕ) (d : DiskTable) (i : ℕ) : Except Fault DiskTable :=
  detectGuid w did { d with entries := d.entries ++ [w.entryAt i] } (w.gptPar (w.entryAt i))

/-- `init_gpt` behind the loop that reads blocks 1 to 5. -/
def initGpt (w : Window) (did : ℕ) (d : DiskTable) : Except Fault DiskTable :=
  if w.gptSign ≠ 0x5452415020494645 then .ok (d.print "GPT signature error.\n")
  else
    let n := w.nPararr
    (List.range n.toNat).foldlM (gptStep w did) (d.print s!"GPT partition number: {n}\n")

/-- The messages of the `switch`; `none` is its default case. -/
def mbrText (partType : UInt8) : Option String :=
  if partType = 0x00 then some "empty.\n"
  else if partType = 0x01 then some "FAT12.\n"
  else if partType = 0x04 then some "FAT16.\n"
  else if partType = 0x06 then some "FAT16B.\n"
  else if partType = 0x07 then some "NTFS/exFAT\n"
  else if partType = 0x0B then some "FAT32(CHS)\n"
  else if partType = 0x0C then some "FAT32(LBA)\n"
  else if partType = 0x0F then some "extended part with LBA\n"
  else if partType = 0x82 then some "linux swap\n"
  else if partType = 0x83 then some "linux fs\n"
  else if partType = 0xEE then some "GPT\n"
  else if partType = 0xEF then some "EFI\n"
  else none

/-- Entry `i` of the MBR, which starts with its boot code and signature. -/
def Window.mbrType (w : Window) (i : ℕ) : UInt8 := w (446 + 16 * i + 4)

def Window.mbrPart (w : Window) (i : ℕ) : DiskPart :=
  ⟨w.mbrType i,BitVec.ofNat 64 (w.field (446 + 16 * i + 8) 4),BitVec.ofNat 64 (w.field (446 + 16 * i + 12) 4)⟩

def mbrStep (w : Window) (did : ℕ) (d : DiskTable) (i : ℕ) : Except Fault DiskTable :=
  match mbrText (w.mbrType i) with
  | none =>
    let partType := (w.mbrType i).toNat
    .ok (d.print s!"MBR part {i}: unknown part type: {partType}\n")
  | some text =>
    let d := d.print s!"MBR part {i}: {text}"
    if w.mbrType i = 0xEE then initGpt w did d else d.record (w.mbrPart i)

/-- `init_mbr` -/
def initMbr (driver : DriverType) (w : Window) (did : ℕ) (d : DiskTable) : Except Fault DiskTable :=
  match driver with
  | .sata => (List.range 4).foldlM (mbrStep w did) d
  | .unknown => .error .panic

/-- `disk[did]` before `init_disk`. -/
def DiskTable.zero : DiskTable := ⟨0,fun _ => ⟨0,0,0⟩,none,[],[]⟩

end Ukern
