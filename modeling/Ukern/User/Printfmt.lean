import Mathlib.Data.Rat.Floor
import Ukern.Kernel.State
import Ukern.Lib.Numeral

/-! # `printfmt.c` and `printf.c`

The formatter that the kernel and the programs share, over the function it gives its characters to, and the
buffer that `printf` of the programs puts them in. The static `buf` of `printint` is passed along. An `int`
does not overflow here, a `u64` wraps around. A `double` is an exact number, and turning one into a `u64` is
defined where it fits.
-/
namespace Ukern.Printf
open Ukern.Lib
variable {σ : Type}

/-- `void (*putch)(char)`, as it acts on the state of whoever prints. -/
abbrev Putch (σ : Type) := σ → UInt8 → Except Fault σ

/-! ## `printint` -/

/-- `static char buf[32]`. -/
abbrev Buf := ℕ → UInt8

def bufSize : ℕ := 32

def storeAt (buf : Buf) (i : ℕ) (c : UInt8) : Except Fault Buf :=
  if i < bufSize then .ok (Function.update buf i c) else .error .outOfBounds

/-- `while (n)` of `printint`. There are rounds enough to run over the buffer. -/
def digitLoop (base : ℕ) : ℕ → ℕ → ℕ → Buf → Except Fault (ℕ × Buf)
  | 0, _, _, _ => .error .hang
  | fuel+1, n, len, buf =>
    if n = 0 then .ok (len,buf)
    else do
      let buf ← storeAt buf len (UInt8.ofNat (n % base + 48))
      let buf ← if 9 < n % base then storeAt buf len (UInt8.ofNat (n % base - 10 + 97)) else .ok buf
      digitLoop base fuel (n / base) (len+1) buf

/-- The digits of `n` and how many there are. -/
def fillBuf (n base : ℕ) (buf : Buf) : Except Fault (ℕ × Buf) :=
  if n = 0 then do .ok (1,← storeAt buf 0 48)
  else do
    let (len,buf) ← digitLoop base (bufSize+1) n 0 buf
    .ok (len,swapLoop len len 0 buf)

def printint (putch : Putch σ) (n : U64) (base : ℕ) (width : ℤ) (padc : UInt8) (buf : Buf) (s : σ) :
    Except Fault (Buf × σ) := do
  let (len,buf) ← fillBuf n.toNat base buf
  let buf ← storeAt buf len 0
  let s ← (List.range (width - len).toNat).foldlM (fun s _ => putch s padc) s
  let s ← (List.range len).foldlM (fun s i => putch s (buf i)) s
  .ok (buf,s)

/-- `while (n)` of `get_precision`, for at most 64 divisions. -/
def precisionLoop (base : ℕ) : ℕ → ℕ → ℕ → Except Fault ℕ
  | 0, _, _ => .error .hang
  | fuel+1, n, len => if n = 0 then .ok len else precisionLoop base fuel (n / base) (len+1)

def getPrecision (n : U64) (base : ℕ) (sign : Bool) : Except Fault ℕ :=
  let n := if sign ∧ n.toInt < 0 then -n else n
  if n = 0 then .ok 1 else precisionLoop base 65 n.toNat 0

/-! ## `vprintfmt` -/

/-- An argument as `va_arg` finds it. A string is what the pointer points to, up to the NUL. -/
inductive Arg
  | int (w : U64)
  | dbl (x : ℚ)
  | str (s : List UInt8)

def vaInt : List Arg → Except Fault (U64 × List Arg)
  | .int w :: args => .ok (w,args)
  | _ => .error .outOfBounds

def vaDbl : List Arg → Except Fault (ℚ × List Arg)
  | .dbl x :: args => .ok (x,args)
  | _ => .error .outOfBounds

def vaStr : List Arg → Except Fault (List UInt8 × List Arg)
  | .str s :: args => .ok (s,args)
  | _ => .error .outOfBounds

/-- `va_arg(ap, u32)` and `va_arg(ap, i32)`, as they are then held in 64 bits. -/
def low32 (w : U64) : U64 := (w.setWidth 32).setWidth 64
def low32s (w : U64) : U64 := (w.setWidth 32).signExtend 64

/-- `num = flt`. -/
def truncU64 (x : ℚ) : Except Fault U64 :=
  if -1 < x ∧ x < 2^64 then .ok (BitVec.ofNat 64 ⌊x⌋.toNat) else .error .outOfBounds

/-- `flags`, `width` and `padc` of a directive. -/
structure Spec where
  long : Bool
  width : ℤ
  padc : UInt8

def Spec.init : Spec := ⟨false,-1,32⟩

/-- `if (width == -1) width = get_precision(...)`. -/
def widthOr (width : ℤ) (n : U64) (base : ℕ) (sign : Bool) : Except Fault ℤ :=
  if width = -1 then do .ok (← getPrecision n base sign) else .ok width

def printstr (putch : Putch σ) (str : List UInt8) (s : σ) : Except Fault σ := str.foldlM putch s

def printD (putch : Putch σ) (sp : Spec) (w : U64) (buf : Buf) (s : σ) : Except Fault (Buf × σ) := do
  let sgnNum := if sp.long then w else low32s w
  let width ← widthOr sp.width sgnNum 10 true
  if sgnNum.toInt < 0 then do
    let s ← putch s 45
    printint putch (-sgnNum) 10 (width - 1) sp.padc buf s
  else printint putch sgnNum 10 width sp.padc buf s

/-- The directives `u` and `x`. -/
def printUnsigned (base : ℕ) (putch : Putch σ) (sp : Spec) (w : U64) (buf : Buf) (s : σ) : Except Fault (Buf × σ) := do
  let num := if sp.long then w else low32 w
  let width ← widthOr sp.width num base false
  printint putch num base width sp.padc buf s

def printU (putch : Putch σ) := printUnsigned 10 putch
def printX (putch : Putch σ) := printUnsigned 16 putch

def printP (putch : Putch σ) (sp : Spec) (w : U64) (buf : Buf) (s : σ) : Except Fault (Buf × σ) := do
  let width ← widthOr sp.width w 16 false
  let s ← putch s 48
  let s ← putch s 120
  printint putch w 16 width sp.padc buf s

/-- `while (num % 10 == 0)`. A `u64` that is not 0 has at most 19 zeros at the end. -/
def stripZeros : ℕ → ℕ → Except Fault ℕ
  | 0, _ => .error .hang
  | fuel+1, num => if num % 10 = 0 then stripZeros fuel (num / 10) else .ok num

def printF (putch : Putch σ) (sp : Spec) (flt : ℚ) (buf : Buf) (s : σ) : Except Fault (Buf × σ) := do
  let num ← truncU64 flt
  let width ← widthOr sp.width num 10 false
  let (buf,s) ← printint putch num 10 width sp.padc buf s
  let num ← truncU64 ((flt - num.toNat) * 1000000)
  if num = 0 then .ok (buf,s)
  else do
    let num := BitVec.ofNat 64 (← stripZeros 20 num.toNat)
    let s ← putch s 46
    let width ← widthOr width num 10 false
    printint putch num 10 width sp.padc buf s

/-- `error_msg`. -/
def errorMsg : List String := [
  "Wrong errno.",
  "Argument list too long.",
  "Permission denied.",
  "Address in use.",
  "Address not available.",
  "Address family not supported.",
  "Resource unavailable, try again (may be the same value as [EWOULDBLOCK]).",
  "Connection already in progress.",
  "Bad file descriptor.",
  "Bad message.",
  "Device or resource busy.",
  "Operation canceled.",
  "No child processes.",
  "Connection aborted.",
  "Connection refused.",
  "Connection reset.",
  "Resource deadlock would occur.",
  "Destination address required.",
  "Mathematics argument out of domain of function.",
  "Reserved.",
  "File exists.",
  "Bad address.",
  "File too large.",
  "Host is unreachable.",
  "Identifier removed.",
  "Illegal byte sequence.",
  "Operation in progress.",
  "Interrupted function.",
  "Invalid argument.",
  "I/O error.",
  "Socket is connected.",
  "Is a directory.",
  "Too many levels of symbolic links.",
  "File descriptor value too large.",
  "Too many links.",
  "Message too large.",
  "Reserved.",
  "Filename too long.",
  "Network is down.",
  "Connection aborted by network.",
  "Network unreachable.",
  "Too many files open in system.",
  "No buffer space available.",
  "[OB XSR] [Option Start] No message is available on the STREAM head read queue. [Option End]",
  "No such device.",
  "No such file or directory.",
  "Executable file format error.",
  "No locks available.",
  "Reserved.",
  "Not enough space.",
  "No message of the desired type.",
  "Protocol not available.",
  "No space left on device.",
  "[OB XSR] [Option Start] No STREAM resources. [Option End]",
  "[OB XSR] [Option Start] Not a STREAM. [Option End]",
  "Functionality not supported.",
  "The socket is not connected.",
  "Not a directory or a symbolic link to a directory.",
  "Directory not empty.",
  "State not recoverable.",
  "Not a socket.",
  "Not supported (may be the same value as [EOPNOTSUPP]).",
  "Inappropriate I/O control operation.",
  "No such device or address.",
  "Operation not supported on socket (may be the same value as [ENOTSUP]).",
  "Value too large to be stored in data type.",
  "Previous owner died.",
  "Operation not permitted.",
  "Broken pipe.",
  "Protocol error.",
  "Protocol not supported.",
  "Protocol wrong type for socket.",
  "Result too large.",
  "Read-only file system.",
  "Invalid seek.",
  "No such process.",
  "Reserved.",
  "[OB XSR] [Option Start] Stream ioctl() timeout. [Option End]",
  "Connection timed out.",
  "Text file busy.",
  "Cross-device link. "]

def emax : ℕ := 81

/-- The directive `e`: `num` is unsigned, so `num <= 0` is `num == 0`. -/
def printE (putch : Putch σ) (w : U64) (s : σ) : Except Fault σ :=
  let num := (-(low32s w)).toNat
  let num := if num = 0 ∨ emax ≤ num then 0 else num
  printstr putch (((errorMsg.getD num "").toList).map Char.toUInt8) s

/-- The `switch`, without the two cases that go back to it. -/
def convert (putch : Putch σ) (c : UInt8) (sp : Spec) (args : List Arg) (buf : Buf) (s : σ) :
    Except Fault (List Arg × Buf × σ) :=
  if c = 'c'.toUInt8 then do
    let (w,args) ← vaInt args
    .ok (args,buf,← putch s (UInt8.ofNat w.toNat))
  else if c = 'd'.toUInt8 then do
    let (w,args) ← vaInt args
    .ok (args,← printD putch sp w buf s)
  else if c = 'u'.toUInt8 then do
    let (w,args) ← vaInt args
    .ok (args,← printU putch sp w buf s)
  else if c = 'x'.toUInt8 then do
    let (w,args) ← vaInt args
    .ok (args,← printX putch sp w buf s)
  else if c = 'p'.toUInt8 then do
    let (w,args) ← vaInt args
    .ok (args,← printP putch sp w buf s)
  else if c = 's'.toUInt8 then do
    let (str,args) ← vaStr args
    .ok (args,buf,← printstr putch str s)
  else if c = '%'.toUInt8 then do
    .ok (args,buf,← putch s 37)
  else if c = 'e'.toUInt8 then do
    let (w,args) ← vaInt args
    .ok (args,buf,← printE putch w s)
  else if c = 'f'.toUInt8 then do
    let (x,args) ← vaDbl args
    .ok (args,← printF putch sp x buf s)
  else do
    let s ← putch s 37
    .ok (args,buf,← putch s c)

/-- The loop over the format; `some sp` is inside a directive, at `movein`. A format that ends in a
directive is read on behind its NUL. -/
def formatLoop (putch : Putch σ) : Option Spec → List UInt8 → List Arg → Buf → σ → Except Fault (Buf × σ)
  | none, [], _, buf, s => .ok (buf,s)
  | some _, [], _, _, s => do
    let s ← putch s 37
    let _ ← putch s 0
    .error .overrun
  | none, c :: fmt, args, buf, s =>
    if c = '%'.toUInt8 then formatLoop putch (some .init) fmt args buf s
    else do formatLoop putch none fmt args buf (← putch s c)
  | some sp, c :: fmt, args, buf, s =>
    if c = '0'.toUInt8 then formatLoop putch (some { sp with padc := '0'.toUInt8 }) fmt args buf s
    else if c = 'l'.toUInt8 then formatLoop putch (some { sp with long := true }) fmt args buf s
    else do
      let (args,buf,s) ← convert putch c sp args buf s
      formatLoop putch none fmt args buf s

def vprintfmt (putch : Putch σ) (fmt : List UInt8) (ap : List Arg) (buf : Buf) (s : σ) : Except Fault (Buf × σ) :=
  formatLoop putch none fmt ap buf s

/-! ## `printf` -/

def stdoutSize : ℕ := 4096

/-- `buf` and `len` of `printf.c`, and what `sys_write(1, ...)` has been given. -/
structure Stdout where
  buf : ℕ → UInt8
  len : ℕ
  written : List (List UInt8)

/-- `sys_write(1, buf, len); len = 0;` -/
def Stdout.flush (o : Stdout) : Stdout :=
  { o with len := 0, written := o.written ++ [(List.range o.len).map o.buf] }

def Stdout.store (o : Stdout) (i : ℕ) (c : UInt8) : Except Fault Stdout :=
  if i < stdoutSize then .ok { o with buf := Function.update o.buf i c } else .error .outOfBounds

def putch (o : Stdout) (c : UInt8) : Except Fault Stdout := do
  let o := if o.len = stdoutSize then o.flush else o
  let o ← o.store o.len c
  let o := { o with len := o.len + 1 }
  o.store o.len 0

/-- `printf`, with the static buffer of `printint` beside that of `printf.c`. -/
def printf (fmt : List UInt8) (ap : List Arg) (b : Buf) (o : Stdout) : Except Fault (Buf × Stdout) := do
  let (b,o) ← vprintfmt putch fmt ap b o
  .ok (b,if 0 < o.len then o.flush else o)

end Ukern.Printf
