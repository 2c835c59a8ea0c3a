import Mathlib.Algebra.Group.Nat.Defs
import Mathlib.Data.BitVec
import Mathlib.Data.Finset.Basic
import Mathlib.Logic.Function.Basic

/-! # Data of the kernel

Translated from `mem.h`, `proc.h`, `fs/fs.h`, `fs/pipe.h` and `kbd.c`. A physical
page is named by its frame number. Its contents have three views, one for each
use the kernel makes of a page: 512 paging entries, 4096 bytes, one pipe. A
pointer to a `struct proc` is the slot number, and `none` is the null pointer.
-/
namespace Ukern

abbrev U64 := BitVec 64

/-- How a kernel path can stop without a result. The first case is a page fault
in kernel mode; `assert`, `panic` and that fault all end in `while (1)`. An `overrun` leaves
an array inside `struct proc`: `fdesc[64]`, or `path[256]` of a descriptor. -/
inductive Fault
  | nullDeref | assertion | panic | outOfBounds | overrun | hang
  deriving DecidableEq, Repr

def pgsize : ℕ := 4096
def nprocs : ℕ := 1024
/-- A pointer into `procs`. -/
abbrev Slot := Fin nprocs
/-- `procs + n`, cyclically. -/
def slotAt (n : ℕ) : Slot := ⟨n % nprocs,Nat.mod_lt _ (by decide)⟩
def nargs : ℕ := 16
def arglen : ℕ := 256
/-- `fdesc[64]` of `struct proc`. -/
def nfdesc : ℕ := 64
def umax : ℕ := 0x00007FFF00000000
def ustack : ℕ := 0x00007FFFFFFFF000
def uargs : ℕ := 0x3FF000
def execImg : ℕ := 0xFFFF900000000000
def freepagesLowwater : ℕ := 1000
/-- `4096 - sizeof(struct pipe)`: seven `u32`, padding and four pointers take 64 bytes. -/
def pipeBuflen : ℕ := 4096 - 64

/-! Flag bits of a paging entry; the same positions serve all four levels. -/
def pteP : BitVec 12 := 0x1
def pteW : BitVec 12 := 0x2
def pteU : BitVec 12 := 0x4
def pteFlags : BitVec 12 := 0x7
def pdePS : BitVec 12 := 0x80

/-- A paging entry: the frame in bits 12 and up, and the twelve low bits. -/
structure Pte where
  frame : ℕ
  flags : BitVec 12
  deriving DecidableEq, Repr

namespace Pte
/-- The all-zero entry. -/
def zero : Pte := ⟨0,0⟩
def p (e : Pte) : Bool := e.flags.getLsbD 0
def w (e : Pte) : Bool := e.flags.getLsbD 1
def u (e : Pte) : Bool := e.flags.getLsbD 2
def ps (e : Pte) : Bool := e.flags.getLsbD 7
/-- `(*pte & flags) == flags`. -/
def covers (e : Pte) (flags : BitVec 12) : Bool := e.flags &&& flags == flags
/-- `*pte &= ~flags`. -/
def clear (e : Pte) (flags : BitVec 12) : Pte := { e with flags := e.flags &&& ~~~flags }
/-- `*pte |= flags`. -/
def set (e : Pte) (flags : BitVec 12) : Pte := { e with flags := e.flags ||| flags }
end Pte

/-- `struct pipe`; sizes and counts are `u32`, buffers are user addresses. -/
structure Pipe where
  rref : ℕ
  wref : ℕ
  head : ℕ
  len : ℕ
  rsiz : ℕ
  wptr : ℕ
  wsiz : ℕ
  reader : Option Slot
  writer : Option Slot
  rbuf : ℕ
  wbuf : ℕ
  buf : ℕ → UInt8

def Pipe.zero : Pipe := ⟨0,0,0,0,0,0,0,none,none,0,0,fun _ => 0⟩

/-- Physical memory with the `page_info` array. `ref` and the free-list link share
a word in the source; a listed page has `ref` 0 here, and `free_page` reads its link
as a count that is never positive. `usable` says which frames got a `paddr` from
the memory map. -/
structure Phys where
  tbl : ℕ → ℕ → Pte
  data : ℕ → ℕ → UInt8
  pipe : ℕ → Pipe
  ref : ℕ → ℤ
  free : List ℕ
  nfreepages : ℕ
  usable : ℕ → Bool
  endKmem : ℕ
  maxAddr : ℕ

inductive FileType
  | zero | kbd | screen | dir | rpipe | wpipe | reg | sock | unknown
  deriving DecidableEq, Repr

/-- `struct file_desc`; the union of the three `meta` members is kept apart by
`fileType`. -/
structure FileDesc where
  fileLen : ℕ
  readPtr : ℕ
  headCluster : ℕ
  useFat : ℕ
  pipe : ℕ
  path : List UInt8
  inuse : Bool
  fileType : FileType
  deriving DecidableEq, Repr

def FileDesc.zero : FileDesc := ⟨0,0,0,0,0,[],false,.zero⟩

/-- `struct proc_context`. -/
structure Context where
  rax : U64
  rcx : U64
  rdx : U64
  rbx : U64
  rdi : U64
  rsi : U64
  rbp : U64
  r8 : U64
  r9 : U64
  r10 : U64
  r11 : U64
  r12 : U64
  r13 : U64
  r14 : U64
  r15 : U64
  rip : U64
  cs : U64
  rflags : U64
  rsp : U64
  ss : U64
  deriving DecidableEq, Repr

def Context.zero : Context := ⟨0,0,0,0,0,0,0,0,0,0,0,0,0,0,0,0,0,0,0,0⟩

inductive ProcState
  | close | ready | running | pending | zombie
  deriving DecidableEq, Repr

/-- `struct proc`. The two page tables are the frames of their top level. -/
structure Proc where
  context : Context
  pgtbl : ℕ
  pPgtbl : ℕ
  pid : ℕ
  state : ProcState
  execTime : ℕ
  pwd : FileDesc
  waitStatus : U64
  endUmem : ℕ
  parent : Option Slot
  livingChild : Option Slot
  zombieChild : Option Slot
  prevSibling : Option Slot
  nextSibling : Option Slot
  exitVal : U64
  waiting : Bool
  fdesc : ℕ → FileDesc

/-- What `memset(proc, 0, sizeof(struct proc))` leaves. -/
def Proc.zero : Proc :=
  ⟨.zero,0,0,0,.close,0,.zero,0,0,none,none,none,none,none,0,false,fun _ => .zero⟩

/-- The kernel's global variables. -/
structure Kernel where
  phys : Phys
  kPgtbl : ℕ
  procs : Slot → Proc
  curproc : Option Slot
  kbdProc : Option Slot
  kbdBuffer : ℕ → UInt8
  kbdBufBeg : ℕ
  kbdBufSiz : ℕ
  gPid : ℕ
  argvBuf : ℕ → UInt8

/-- Overwrite one `struct proc`. -/
def Kernel.setProc (k : Kernel) (i : Slot) (p : Proc) : Kernel :=
  { k with procs := Function.update k.procs i p }

/-- Update one `struct proc` in place. -/
def Kernel.modProc (k : Kernel) (i : Slot) (f : Proc → Proc) : Kernel :=
  k.setProc i (f (k.procs i))

/-- A negative error code in a 64-bit register. -/
def neg (e : ℕ) : U64 := BitVec.ofInt 64 (-e)

def ebadf : ℕ := 8
def ebusy : ℕ := 10
def echild : ℕ := 12
def efault : ℕ := 21
def einval : ℕ := 28
def emfile : ℕ := 33
def enoent : ℕ := 45
def enoexec : ℕ := 46
def enomem : ℕ := 49

/-- The conversion to `int` that `int fd = tf->rdx` makes. -/
def toInt32 (x : U64) : ℤ := (x.setWidth 32).toInt

end Ukern
