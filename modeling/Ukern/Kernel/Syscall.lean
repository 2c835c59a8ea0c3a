import Ukern.Kernel.Pipe
import Ukern.Kernel.Fs

/-! # `syscall.c`

Each call takes the trap frame `tf` and the slot `c` of `curproc`. It either
returns to the interrupted context, or leaves through `sched`.
-/
namespace Ukern

inductive Outcome
  | ret (tf : Context) (k : Kernel)
  | run (k : Kernel)

/-- The kernel after the trap, whichever way it ended. -/
def Outcome.kernel : Outcome → Kernel
  | .ret _ k => k
  | .run k => k

def Kernel.sched (k : Kernel) : Except Fault Outcome := do .ok (.run (← Ukern.sched k))

/-- Return with a value in `rax`. -/
def Kernel.done (k : Kernel) (tf : Context) (rax : U64) : Except Fault Outcome :=
  .ok (.ret { tf with rax := rax } k)

/-- The loop of `check_mem` over `n` pages from `a`. -/
def checkPages (m : Phys) (pgtbl : ℕ) (flags : BitVec 12) : ℕ → ℕ → Except Fault Bool
  | 0, _ => .ok true
  | n+1, a => do
    match ← walkPgtbl m pgtbl a false with
    | (.slot t i,_) =>
      if (m.tbl t i).covers flags then checkPages m pgtbl flags n ((a + pgsize) % 2^64) else .ok false
    | _ => .ok false

/-- Number of pages from `PAGEADDR(addr)` to the `end` that both checks compute. -/
def checkCount (addr siz : U64) : ℕ :=
  let a := addr.toNat / pgsize * pgsize
  ((a + siz.toNat) % 2^64 / pgsize * pgsize + pgsize + 2^64 - a) % 2^64 / pgsize

/-- `check_mem`. -/
def checkMem (m : Phys) (pgtbl : ℕ) (addr siz : U64) (flags : BitVec 12) : Except Fault Bool :=
  checkPages m pgtbl (flags ||| pteP) (checkCount addr siz) (addr.toNat / pgsize * pgsize)

/-- The loop of `check_str`; only the first page is entered at an offset. -/
def checkStrPages (m : Phys) (pgtbl : ℕ) (flags : BitVec 12) : ℕ → ℕ → ℕ → Except Fault Bool
  | 0, _, _ => .ok false
  | n+1, a, off => do
    match ← walkPgtbl m pgtbl a false with
    | (.slot t i,_) =>
      if !(m.tbl t i).covers flags then .ok false
      else if (List.range (pgsize - off)).any fun j => m.data (m.tbl t i).frame (off + j) == 0 then .ok true
      else checkStrPages m pgtbl flags n ((a + pgsize) % 2^64) 0
    | _ => .ok false

/-- `check_str`. -/
def checkStr (m : Phys) (pgtbl : ℕ) (addr siz : U64) (flags : BitVec 12) : Except Fault Bool :=
  checkStrPages m pgtbl (flags ||| pteP) (checkCount addr siz) (addr.toNat / pgsize * pgsize)
    (addr.toNat % pgsize)

/-- `int fd` with the range test of the calls. -/
def fdOf (x : U64) : Option ℕ := if 0 ≤ toInt32 x ∧ toInt32 x < 64 then some (toInt32 x).toNat else none

def Kernel.setFdesc (k : Kernel) (i : Slot) (fd : ℕ) (f : FileDesc) : Kernel :=
  k.modProc i fun p => { p with fdesc := Function.update p.fdesc fd f }

/-- The search `for (fd = 0; fd < 256; ++fd)` from `fd`, over the 64 descriptors there are. -/
def freeFd (p : Proc) (fd : ℕ) : Except Fault ℕ :=
  match (List.range nfdesc).find? fun i => decide (fd ≤ i) && !(p.fdesc i).inuse with
  | some i => .ok i
  | none => .error .overrun

/-- One step of the descriptor loop of `sys_fork`. -/
def forkFdesc (n c : Slot) (k : Kernel) (fd : ℕ) : Kernel :=
  let f := (k.procs c).fdesc fd
  let k := k.setFdesc n fd f
  if !f.inuse then k
  else
    let q := k.pipe f.pipe
    match f.fileType with
    | .rpipe => k.setPipe f.pipe { q with rref := inc32 q.rref }
    | .wpipe => k.setPipe f.pipe { q with wref := inc32 q.wref }
    | _ => k

/-- The child enters the list of living children at its head. -/
def addChild (k : Kernel) (n c : Slot) : Kernel :=
  let k := match (k.procs c).livingChild with
    | none =>
      let k := k.modProc c fun p => { p with livingChild := some n }
      k.modProc n fun p => { p with prevSibling := none, nextSibling := none }
    | some ohead =>
      let k := k.modProc ohead fun p => { p with prevSibling := some n }
      let k := k.modProc n fun p => { p with nextSibling := some ohead }
      k.modProc c fun p => { p with livingChild := some n }
  k.modProc n fun p => { p with parent := some c }

/-- The page table work of `sys_fork`: both tables of the child from `p_pgtbl` of the parent. -/
def forkTables (m : Phys) (child parent : Proc) : Except Fault Phys := do
  let m ← copyPgtbl m child.pgtbl parent.pPgtbl true
  let m ← copyPgtbl m child.pPgtbl parent.pPgtbl false
  let m := pgtblClearflags m child.pgtbl pteW
  .ok (pgtblClearflags m parent.pgtbl pteW)

def sysFork (k : Kernel) (c : Slot) (tf : Context) : Except Fault Outcome := do
  match ← allocProc k with
  | (none,_) => .error .nullDeref
  | (some n,k) =>
    let k := addChild k n c
    let k := k.setPhys (← forkTables k.phys (k.procs n) (k.procs c))
    let k := (List.range nfdesc).foldl (forkFdesc n c) k
    let pid := BitVec.ofNat 64 (k.procs n).pid
    let k := k.modProc n fun p => { p with
      pwd := (k.procs c).pwd
      execTime := (k.procs c).execTime
      endUmem := (k.procs c).endUmem
      context := { tf with rax := 0 }
      state := .ready }
    k.done tf pid

/-- `sys_open` and `sys_opendir`. -/
def sysOpenAs (opendir : Bool) (fs : Fs) (k : Kernel) (c : Slot) (tf : Context) : Except Fault Outcome := do
  let p := k.procs c
  if !(← checkStr k.phys p.pPgtbl tf.rdx 256 pteU) then k.done tf (neg efault)
  else
    let fd ← freeFd p 0
    let (r,f,m) ← exfatOpen fs k.phys k.kPgtbl (userPath k.phys p.pgtbl tf.rdx) p.pwd (p.fdesc fd) opendir
    let k := k.setPhys m
    if r = 0 then (k.setFdesc c fd { f with inuse := true }).done tf (BitVec.ofNat 64 fd)
    else (k.setFdesc c fd f).done tf r

def sysOpen := sysOpenAs false
def sysOpendir := sysOpenAs true

/-- Copy `r` bytes from the keyboard ring through a user pointer. -/
def kbdCopy (t : ℕ) (dst : U64) (k : Kernel) (i : ℕ) : Except Fault Kernel := do
  let m ← kstore k.phys t (dst + BitVec.ofNat 64 i) (k.kbdBuffer k.kbdBufBeg)
  let beg := k.kbdBufBeg + 1
  .ok { k with phys := m, kbdBufBeg := if beg = 4096 then 0 else beg, kbdBufSiz := k.kbdBufSiz - 1 }

/-- `sys_read` on the keyboard. -/
def readKbd (k : Kernel) (c : Slot) (tf : Context) : Except Fault Outcome :=
  if 0 < k.kbdBufSiz then do
    let r := min k.kbdBufSiz tf.rbx.toNat
    let k ← (List.range r).foldlM (kbdCopy (k.procs c).pgtbl tf.rcx) k
    k.done tf (BitVec.ofNat 64 r)
  else if k.kbdProc.isSome then k.done tf (neg ebusy)
  else ({ k with kbdProc := some c }.block c tf).sched

/-- `sys_read` on a regular file. The count is an `int`. -/
def readReg (fs : Fs) (k : Kernel) (c : Slot) (fd : ℕ) (tf : Context) : Except Fault Outcome := do
  let p := k.procs c
  let f := p.fdesc fd
  let (n,m) ← exfatReadFile fs k.phys k.kPgtbl p.pgtbl tf.rcx tf.rbx.toNat f
  let r : U64 := BitVec.ofInt 64 (BitVec.ofNat 32 n).toInt
  let f := { f with readPtr := (f.readPtr + r.toNat) % 2^64 }
  ((k.setPhys m).setFdesc c fd f).done tf r

/-- `sys_read` on the read end of a pipe. -/
def readPipe (k : Kernel) (c : Slot) (pg : ℕ) (tf : Context) : Except Fault Outcome := do
  if (k.pipe pg).reader.isSome then k.done tf (neg ebusy)
  else
    let k := k.setPipe pg { k.pipe pg with
      reader := some c
      rsiz := tf.rbx.toNat % 2^32
      rbuf := tf.rcx.toNat }
    if 0 < (k.pipe pg).len then do
      let (n,k) ← pipeRead 3 k pg false
      k.done tf (BitVec.ofNat 64 n)
    else if (k.pipe pg).wref = 0 then k.done tf 0
    else (k.block c tf).sched

def sysRead (fs : Fs) (k : Kernel) (c : Slot) (tf : Context) : Except Fault Outcome := do
  match fdOf tf.rdx with
  | none => k.done tf (neg ebadf)
  | some fd =>
    if tf.rbx = 0 then k.done tf (neg einval)
    else if !(← checkMem k.phys (k.procs c).pPgtbl tf.rcx tf.rbx (pteU ||| pteW)) then
      k.done tf (neg efault)
    else
      let f := (k.procs c).fdesc fd
      if !f.inuse then k.done tf (neg ebadf)
      else match f.fileType with
        | .kbd => readKbd k c tf
        | .reg => readReg fs k c fd tf
        | .rpipe => readPipe k c f.pipe tf
        | _ => k.done tf (neg ebadf)

def sysReaddir (fs : Fs) (k : Kernel) (c : Slot) (tf : Context) : Except Fault Outcome := do
  match fdOf tf.rdx with
  | none => k.done tf (neg ebadf)
  | some fd =>
    let p := k.procs c
    if !(← checkMem k.phys p.pPgtbl tf.rcx 280 (pteU ||| pteW)) then k.done tf (neg efault)
    else
      let f := p.fdesc fd
      if f.inuse = false ∨ f.fileType ≠ .dir then k.done tf (neg ebadf)
      else
        let (f,m) ← exfatReadDir fs k.phys k.kPgtbl p.pgtbl tf.rcx f
        ((k.setPhys m).setFdesc c fd f).done tf 0

def sysChdir (fs : Fs) (k : Kernel) (c : Slot) (tf : Context) : Except Fault Outcome := do
  let p := k.procs c
  if !(← checkStr k.phys p.pPgtbl tf.rdx 256 pteU) then k.done tf (neg efault)
  else
    let (r,f,m) ← exfatOpen fs k.phys k.kPgtbl (userPath k.phys p.pgtbl tf.rdx) p.pwd .zero true
    let k := k.setPhys m
    if r ≠ 0 then k.done tf r
    else (k.modProc c fun p => { p with pwd := f }).done tf 0

/-- `sys_write` on the write end of a pipe. -/
def writePipe (k : Kernel) (c : Slot) (pg : ℕ) (tf : Context) : Except Fault Outcome := do
  if (k.pipe pg).writer.isSome then k.done tf (neg ebusy)
  else
    let k := k.setPipe pg { k.pipe pg with
      writer := some c
      wsiz := tf.rbx.toNat % 2^32
      wptr := 0
      wbuf := tf.rcx.toNat }
    let (n,k) ← pipeWrite 3 k pg false
    if tf.rbx.toNat < n then .error .assertion
    else if n = tf.rbx.toNat then k.done tf (BitVec.ofNat 64 n)
    else (k.block c tf).sched

/-- `sys_write`. The refusal of an empty write goes to `rbx`, not to `rax`. -/
def sysWrite (k : Kernel) (c : Slot) (tf : Context) : Except Fault Outcome := do
  match fdOf tf.rdx with
  | none => k.done tf (neg ebadf)
  | some fd =>
    if tf.rbx = 0 then .ok (.ret { tf with rbx := neg einval } k)
    else if !(← checkMem k.phys (k.procs c).pPgtbl tf.rcx tf.rbx pteU) then k.done tf (neg efault)
    else
      let f := (k.procs c).fdesc fd
      if !f.inuse then k.done tf (neg ebadf)
      else match f.fileType with
        | .screen => do
          let n := tf.rbx.toNat % 2^32
          let _ ← kloads k.phys (k.procs c).pgtbl tf.rcx n
          k.done tf (BitVec.ofNat 64 n)
        | .wpipe => writePipe k c f.pipe tf
        | _ => k.done tf (neg ebadf)

/-- Store the number of a pipe end and set up its descriptor. -/
def pipeEnd (k : Kernel) (c : Slot) (pg fd : ℕ) (dst : U64) (type : FileType) : Except Fault Kernel := do
  let m ← kstores k.phys (k.procs c).pgtbl dst (toBytes fd 4)
  let f := (k.procs c).fdesc fd
  .ok ((k.setPhys m).setFdesc c fd { f with inuse := true, fileType := type, pipe := pg })

/-- `sys_pipe`. The search for two descriptors runs past the 64 there are before it gives up. -/
def sysPipe (k : Kernel) (c : Slot) (tf : Context) : Except Fault Outcome := do
  if !(← checkStr k.phys (k.procs c).pPgtbl tf.rdx 8 pteU) then k.done tf (neg efault)
  else
    let (pg,m) ← getPage k.phys true
    let k := (k.setPhys m).setPipe pg { m.pipe pg with rref := 1, wref := 1 }
    let rfd ← freeFd (k.procs c) 0
    let k ← pipeEnd k c pg rfd tf.rdx .rpipe
    let wfd ← freeFd (k.procs c) (rfd+1)
    let k ← pipeEnd k c pg wfd (tf.rdx + 4) .wpipe
    k.done tf 0

/-- `sys_close`. The last line is `fdesc[fd].inuse = 0` with `fdesc` already at entry `fd`. -/
def sysClose (k : Kernel) (c : Slot) (tf : Context) : Except Fault Outcome := do
  match fdOf tf.rdx with
  | none => k.done tf (neg ebadf)
  | some fd =>
    let f := (k.procs c).fdesc fd
    if !f.inuse then k.done tf (neg ebadf)
    else
      let k ← dropFdesc k f
      if nfdesc ≤ fd + fd then .error .overrun
      else
        let g := (k.procs c).fdesc (fd + fd)
        .ok (.ret tf (k.setFdesc c (fd + fd) { g with inuse := false }))

/-- `ROUNDUP(x, PGSIZE)` on `u64`. -/
def roundup (x : ℕ) : ℕ := (x + pgsize - 1) % 2^64 / pgsize * pgsize

/-- One page of `sys_sbrk`, entered in both tables. -/
def sbrkPage (p : Proc) (start : ℕ) (m : Phys) (i : ℕ) : Except Fault Phys := do
  let vaddr := start + i * pgsize
  let (pg,m) ← getPage m true
  let (t,j,m) ← walkSlot m p.pgtbl vaddr true
  let m := m.setEntry t j ⟨pg,pteU ||| pteP ||| pteW⟩
  let (t,j,m) ← walkSlot m p.pPgtbl vaddr true
  .ok (m.setEntry t j ⟨pg,pteU ||| pteP ||| pteW⟩)

/-- The signed comparison `(i64)new_pages >= (i64)(nfreepages - FREEPAGES_LOWWATER)`. -/
def sbrkRefused (m : Phys) (oPgend nPgend : ℕ) : Bool :=
  let newPages : U64 := (BitVec.ofNat 64 nPgend - BitVec.ofNat 64 oPgend) / BitVec.ofNat 64 pgsize
    - BitVec.ofNat 64 m.nfreepages
  decide (umax ≤ nPgend) ||
    decide ((BitVec.ofNat 64 m.nfreepages - BitVec.ofNat 64 freepagesLowwater).toInt ≤ newPages.toInt)

def sysSbrk (k : Kernel) (c : Slot) (tf : Context) : Except Fault Outcome := do
  let p := k.procs c
  let oPgend := roundup p.endUmem
  let nPgend := roundup ((p.endUmem + tf.rdx.toNat) % 2^64)
  if sbrkRefused k.phys oPgend nPgend then k.done tf 0
  else
    let m ← (List.range ((nPgend - oPgend) / pgsize)).foldlM (sbrkPage p oPgend) k.phys
    let k := (k.setPhys m).modProc c fun p => { p with endUmem := (p.endUmem + tf.rdx.toNat) % 2^64 }
    k.done tf (BitVec.ofNat 64 p.endUmem)

def sysGetpid (k : Kernel) (c : Slot) (tf : Context) : Except Fault Outcome :=
  k.done tf (BitVec.ofNat 64 (k.procs c).pid)

def sysExit (k : Kernel) (c : Slot) (exitVal : U64) : Except Fault Outcome := do
  (← killProc k c exitVal).sched

/-- `if (wstatus != NULL) *wstatus = ...` -/
def waitStore (m : Phys) (pgtbl : ℕ) (wstatus exitVal : U64) : Except Fault Phys :=
  if wstatus ≠ 0 then kstores m pgtbl wstatus (toBytes exitVal.toNat 8) else .ok m

/-- The first branch of `sys_wait`: report a zombie child and clear it. -/
def waitZombie (k : Kernel) (c ohead : Slot) (tf : Context) : Except Fault Outcome := do
  let nhead := (k.procs ohead).nextSibling
  let k := k.setPhys (← waitStore k.phys (k.procs c).pgtbl tf.rdx (k.procs ohead).exitVal)
  let pid := BitVec.ofNat 64 (k.procs ohead).pid
  let k := k.modProc c fun p => { p with zombieChild := nhead }
  let k := k.modPtr nhead fun p => { p with prevSibling := none }
  (← clearProc k ohead).done tf pid

/-- The test of the status pointer. -/
def waitCheck (m : Phys) (pPgtbl : ℕ) (wstatus : U64) : Except Fault Bool :=
  if wstatus = 0 then .ok true else checkMem m pPgtbl wstatus 8 (pteU ||| pteW)

def sysWait (k : Kernel) (c : Slot) (tf : Context) : Except Fault Outcome := do
  if !(← waitCheck k.phys (k.procs c).pPgtbl tf.rdx) then k.done tf (neg efault)
  else match (k.procs c).zombieChild with
    | some ohead => waitZombie k c ohead tf
    | none =>
      if (k.procs c).livingChild = none then k.done tf (neg echild)
      else
        let k := k.modProc c fun p => { p with waiting := true, waitStatus := tf.rdx }
        (k.block c tf).sched

end Ukern
