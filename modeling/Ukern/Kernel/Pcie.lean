import Ukern.Kernel.State

/-! # Enumeration of the PCIe functions

`scan_bus` and `scan_devfn` of `pcie/pcie.c`. Configuration space is read by words. A `Func` is a bus and
a `devfn`; the log holds the functions `pcie_init_device` was called for.
-/
namespace Ukern.Pcie

def vendorid : ℕ := 0x00
def hdrtype : ℕ := 0x0E
def secbus : ℕ := 0x19

/-- `pcie_base`, and the 32-bit word at an address behind it. -/
structure Config where
  base : U64
  word : U64 → BitVec 32

abbrev Func := UInt8 × ℕ

namespace Config
variable (cfg : Config)

/-- `pcie_base | (bus << 20) | (devfn << 12)` -/
def hdr (bus : UInt8) (devfn : ℕ) : U64 :=
  cfg.base ||| (BitVec.ofNat 64 bus.toNat <<< 20) ||| (BitVec.ofNat 64 devfn <<< 12)

def read (base : U64) (offset : ℕ) : BitVec 32 := cfg.word (base + BitVec.ofNat 64 (4 * (offset / 4)))

def readw (base : U64) (offset : ℕ) : BitVec 16 := (cfg.read base offset >>> (8 * (offset % 4))).setWidth 16

def readb (base : U64) (offset : ℕ) : UInt8 := ⟨(cfg.read base offset >>> (8 * (offset % 4))).setWidth 8⟩

/-- `(pcie_readb(hdr, HDRTYPE) & 0x7F) == 0x00` -/
def isDevice (bus : UInt8) (devfn : ℕ) : Bool := cfg.readb (cfg.hdr bus devfn) hdrtype &&& 0x7F == 0

def isAbsent (bus : UInt8) (devfn : ℕ) : Bool := cfg.readw (cfg.hdr bus devfn) vendorid == 0xFFFF

def secondary (bus : UInt8) (devfn : ℕ) : UInt8 := cfg.readb (cfg.hdr bus devfn) secbus

/-- `scan_devfn`, with `scan_bus` as it is called from there. -/
def scanDevfn (scanBus : UInt8 → List Func → Except Fault (List Func)) (bus : UInt8) (log : List Func) (devfn : ℕ) :
    Except Fault (List Func) :=
  if cfg.isAbsent bus devfn then .ok log
  else if cfg.isDevice bus devfn then .ok (log ++ [(bus,devfn)])
  else scanBus (cfg.secondary bus devfn) log

/-- `scan_bus`, with a bound on how deep its calls are nested. -/
def scanBus : ℕ → UInt8 → List Func → Except Fault (List Func)
  | 0, _, _ => .error .hang
  | depth+1, bus, log => (List.range 0x100).foldlM (cfg.scanDevfn (scanBus depth) bus) log

end Config

end Ukern.Pcie
